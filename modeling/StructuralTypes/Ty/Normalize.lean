import StructuralTypes.Ty.Same

set_option autoImplicit false

namespace StructuralTypes.Ty

/-- The types of a list that equal neither a type of `kept` nor an earlier type of the list. -/
def distinctFrom (kept : List Ty) : List Ty → List Ty
  | [] => []
  | ty :: tys =>
    if ty.isAmong kept then distinctFrom kept tys else ty :: distinctFrom (kept ++ [ty]) tys

/-- The first of each group of equal types. -/
def distinct (tys : List Ty) : List Ty := distinctFrom [] tys

/-- A literal next to its own keyword type adds nothing to a union. -/
def isAbsorbed (tys : List Ty) : Ty → Bool
  | literal value => tys.any (fun ty => ty.primitive? == some value.base)
  | _ => false

/-- The union of the given types. A union with `any` in it is `any`, and the empty one is `never`. -/
def union (tys : List Ty) : Ty :=
  let members := distinct (tys.flatMap unionMembers)
  if members.any isAny then any
  else
    let inhabited := members.filter (fun ty => !ty.isNever)
    match inhabited.filter (fun ty => !isAbsorbed inhabited ty) with
    | [] => never
    | [ty] => ty
    | kept => unionOf kept

/-- The intersection of the given types. One with `never` in it is `never`, else one with `any` in it
is `any`, and the empty one is `any`. -/
def intersection (tys : List Ty) : Ty :=
  let members := distinct (tys.flatMap intersectionMembers)
  if members.any isNever then never
  else if members.any isAny then any
  else
    match members with
    | [] => any
    | [ty] => ty
    | kept => intersectionOf kept

end StructuralTypes.Ty

namespace StructuralTypes.Property

/-- What a slot accepts: an optional one may also hold `undefined`. -/
def declared (property : Property Ty) : Ty :=
  if property.optional then .union [property.ty, .undefined] else property.ty

end StructuralTypes.Property
