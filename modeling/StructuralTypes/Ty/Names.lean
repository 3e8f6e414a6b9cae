import StructuralTypes.Ty

set_option autoImplicit false

namespace StructuralTypes.Ty

mutual

/-- The referenced names that are neither in `bound` nor type parameters of a function around the
reference, one entry for each reference. A function binds its type parameters in their constraints
too. -/
def freeNames (bound : List String) : Ty → List String
  | primitive _ | literal _ | anyFunction => []
  | ref name => if bound.contains name then [] else [name]
  | array element => element.freeNames bound
  | tuple elements => freeNamesAll bound elements
  | object ⟨properties, index, _, _⟩ =>
    freeNamesProperties bound properties ++ freeNamesIndex bound index
  | record key value => key.freeNames bound ++ value.freeNames bound
  | unionOf members => freeNamesAll bound members
  | intersectionOf members => freeNamesAll bound members
  | function ⟨typeParams, params, result⟩ =>
    let bound := typeParams.map (·.name) ++ bound
    freeNamesConstraints bound typeParams ++ freeNamesAll bound params ++ result.freeNames bound
  | keyof subject => subject.freeNames bound
  | predicate _ guard => guard.freeNames bound
termination_by structural ty => ty

def freeNamesAll (bound : List String) : List Ty → List String
  | [] => []
  | ty :: tys => ty.freeNames bound ++ freeNamesAll bound tys
termination_by structural tys => tys

def freeNamesProperties (bound : List String) : List (Property Ty) → List String
  | [] => []
  | ⟨_, ty, _⟩ :: properties => ty.freeNames bound ++ freeNamesProperties bound properties
termination_by structural properties => properties

def freeNamesIndex (bound : List String) : Option (IndexSignature Ty) → List String
  | none => []
  | some ⟨key, value⟩ => key.freeNames bound ++ value.freeNames bound
termination_by structural index => index

def freeNamesConstraints (bound : List String) : List (TypeParam Ty) → List String
  | [] => []
  | ⟨_, none⟩ :: params => freeNamesConstraints bound params
  | ⟨_, some constraint⟩ :: params =>
    constraint.freeNames bound ++ freeNamesConstraints bound params
termination_by structural params => params

end

mutual

/-- Some reference is to one of the names. Constraints of type parameters do not count. -/
def mentions (names : List String) : Ty → Bool
  | primitive _ | literal _ | anyFunction => false
  | ref name => names.contains name
  | array element => element.mentions names
  | tuple elements => anyMentions names elements
  | object ⟨properties, index, _, _⟩ =>
    propertiesMention names properties || indexMentions names index
  | record key value => key.mentions names || value.mentions names
  | unionOf members => anyMentions names members
  | intersectionOf members => anyMentions names members
  | function ⟨_, params, result⟩ => anyMentions names params || result.mentions names
  | keyof subject => subject.mentions names
  | predicate _ guard => guard.mentions names
termination_by structural ty => ty

def anyMentions (names : List String) : List Ty → Bool
  | [] => false
  | ty :: tys => ty.mentions names || anyMentions names tys
termination_by structural tys => tys

def propertiesMention (names : List String) : List (Property Ty) → Bool
  | [] => false
  | ⟨_, ty, _⟩ :: properties => ty.mentions names || propertiesMention names properties
termination_by structural properties => properties

def indexMentions (names : List String) : Option (IndexSignature Ty) → Bool
  | none => false
  | some ⟨key, value⟩ => key.mentions names || value.mentions names
termination_by structural index => index

end

end StructuralTypes.Ty
