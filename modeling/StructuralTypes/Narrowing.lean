import StructuralTypes.Compatibility

set_option autoImplicit false

namespace StructuralTypes

/-- A condition on a variable. -/
inductive Guard where
  /-- Written `typeof x === "name"`. -/
  | typeofIs (name : String)
  /-- Written `x === literal`. -/
  | equals (literal : Ty)
  /-- Written `x == null`, which also holds of `undefined`. -/
  | nullish
  /-- The variable itself as a condition. -/
  | truthy
  /-- A guard function for the given type. -/
  | is (ty : Ty)

namespace Guard

/-- The condition that a call expresses by its result type. -/
def ofResult? : Ty → Option Guard
  | .predicate _ guard => some (.is guard)
  | _ => none

end Guard

namespace Primitive

/-- The keyword types that are never true in a condition: `null`, `undefined` and `void`. -/
def isAlwaysFalsy (kind : Primitive) : Bool := kind.isNullish || kind == .void

/-- The name that `typeof` gives for values of a keyword type. -/
def typeofName? : Primitive → Option String
  | string => some "string"
  | number => some "number"
  | boolean => some "boolean"
  | undefined | void => some "undefined"
  | null => some "object"
  | any | never => none

end Primitive

namespace Ty

mutual

/-- The values of a type have the given `typeof` name. An intersection has the names of all its
members; of a reference nothing is known. -/
def hasTypeof (name : String) : Ty → Bool
  | primitive kind => kind.typeofName? == some name
  | literal value => value.base.keyword == name
  | predicate _ _ => name == "boolean"
  | anyFunction | function _ => name == "function"
  | array _ | tuple _ | object _ | record _ _ => name == "object"
  | intersectionOf members => anyHasTypeof name members
  | unionOf _ | ref _ | keyof _ => false
termination_by structural ty => ty

def anyHasTypeof (name : String) : List Ty → Bool
  | [] => false
  | ty :: tys => ty.hasTypeof name || anyHasTypeof name tys
termination_by structural tys => tys

end

/-- What `any` becomes under a `typeof` name. -/
def ofTypeof (name : String) : Ty :=
  match name with
  | "string" => string
  | "number" => number
  | "boolean" => boolean
  | "undefined" => undefined
  | "function" => anyFunction
  | _ => any

/-- The type without `null` and `undefined`. -/
def removeNullish (ty : Ty) : Ty :=
  match ty with
  | unionOf members => union (members.filter (fun m => !m.isNullish))
  | _ => if ty.isNullish then never else ty

/-- What is left of a union member that is not equal to a literal. -/
def withoutLiteral? (literal member : Ty) : Option Ty :=
  if member.same literal then none
  else
    match member, literal with
    | boolean, .literal (.boolean b) => some (.literal (.boolean !b))
    | _, _ => some member

/-- What is left of a union member that is true in a condition. -/
def truthyPart? : Ty → Option Ty
  | boolean => some (literal (.boolean true))
  | primitive kind => if kind.isAlwaysFalsy then none else some (primitive kind)
  | literal value => if value.isFalsy then none else some (literal value)
  | member => some member

/-- What is left of a union member that is false in a condition. -/
def falsyPart? : Ty → Option Ty
  | boolean => some (literal (.boolean false))
  | string => some (literal (.text ""))
  | number => some (literal (.number .zero))
  | primitive kind => if kind.isAlwaysFalsy then some (primitive kind) else none
  | literal value => if value.isFalsy then some (literal value) else none
  | _ => none

end Ty

namespace AliasMap

/-- Narrowing compares types under the default settings. -/
def narrowing (aliases : AliasMap) : Context := { aliases := aliases }

/-- The members of a type that pass a test. -/
def filterMembers (aliases : AliasMap) (test : Ty → Limited Bool) (ty : Ty) : Limited Ty := do
  return .union (← Limited.filter test (aliases.concrete ty).unionMembers)

/-- The members of a source that match a target. -/
def narrowTo (aliases : AliasMap) (source target : Ty) : Limited Ty := do
  let resolved := aliases.concrete source
  if resolved.isAny then return target
  let kept ← Limited.filter
    (fun m => if m.same target then return true else aliases.narrowing.compatible m target)
    resolved.unionMembers
  return .union kept

/-- A source without the members that match a target. A target that is not a member itself takes
nothing away. -/
def narrowExcluding (aliases : AliasMap) (source target : Ty) : Limited Ty := do
  let resolved := aliases.concrete source
  if resolved.isAny || !target.isAmong resolved.unionMembers then return source
  let kept ← Limited.filter (fun m => return !(← aliases.narrowing.compatible m target))
    resolved.unionMembers
  return .union kept

def narrowTypeof (aliases : AliasMap) (source : Ty) (name : String) (sense : Bool) :
    Limited Ty := do
  let resolved := aliases.concrete source
  if resolved.isAny then return if sense then .ofTypeof name else .any
  aliases.filterMembers (fun m => return (aliases.concrete m).hasTypeof name == sense) resolved

/-- What a union member becomes where the variable equals a literal. -/
def literalPart (aliases : AliasMap) (literal member : Ty) : Limited (List Ty) := do
  if member.same literal then return [member]
  if ← aliases.narrowing.compatible literal member then return [literal]
  return []

def literalParts (aliases : AliasMap) (literal : Ty) : List Ty → Limited (List Ty)
  | [] => return []
  | m :: ms => do
    let first ← aliases.literalPart literal m
    return first ++ (← aliases.literalParts literal ms)

def narrowToLiteral (aliases : AliasMap) (source literal : Ty) : Limited Ty := do
  let resolved := aliases.concrete source
  if resolved.isAny then return literal
  return .union (← aliases.literalParts literal resolved.unionMembers)

def narrowExcludingLiteral (aliases : AliasMap) (source literal : Ty) : Ty :=
  let resolved := aliases.concrete source
  if resolved.isAny then resolved
  else .union (resolved.unionMembers.filterMap (Ty.withoutLiteral? literal))

def narrowToNullish (aliases : AliasMap) (source : Ty) : Ty :=
  let resolved := aliases.concrete source
  if resolved.isAny then .union [.null, .undefined]
  else .union (resolved.unionMembers.filter Ty.isNullish)

def narrowTruthy (aliases : AliasMap) (source : Ty) : Ty :=
  .union ((aliases.concrete source).unionMembers.filterMap Ty.truthyPart?)

def narrowFalsy (aliases : AliasMap) (source : Ty) : Ty :=
  let resolved := aliases.concrete source
  if resolved.isAny then resolved
  else .union (resolved.unionMembers.filterMap Ty.falsyPart?)

/-- Where a guard function says yes but no member matches, the guard's type refines the source if it
is compatible with it. -/
def narrowByPredicate (aliases : AliasMap) (source guard : Ty) : Limited Ty := do
  let narrowed ← aliases.narrowTo source guard
  if narrowed.isNever then
    if ← aliases.narrowing.compatible guard (aliases.concrete source) then return guard
  return narrowed

def narrowAgainstPredicate (aliases : AliasMap) (source guard : Ty) : Limited Ty := do
  let resolved := aliases.concrete source
  if resolved.isAny then return resolved
  aliases.filterMembers (fun m => return !(← aliases.narrowing.compatible m guard)) resolved

/-- The type of a variable where a condition on it holds (`sense` is true) or fails. -/
def narrow (aliases : AliasMap) (source : Ty) (guard : Guard) (sense : Bool) : Limited Ty :=
  match guard, sense with
  | .typeofIs name, _ => aliases.narrowTypeof source name sense
  | .equals literal, true => aliases.narrowToLiteral source literal
  | .equals literal, false => return aliases.narrowExcludingLiteral source literal
  | .nullish, true => return aliases.narrowToNullish source
  | .nullish, false => return (aliases.concrete source).removeNullish
  | .truthy, true => return aliases.narrowTruthy source
  | .truthy, false => return aliases.narrowFalsy source
  | .is ty, true => aliases.narrowByPredicate source ty
  | .is ty, false => aliases.narrowAgainstPredicate source ty

end AliasMap

end StructuralTypes
