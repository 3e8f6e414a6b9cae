import StructuralTypes.Number.Decimal
import StructuralTypes.Ty

set_option autoImplicit false

namespace StructuralTypes

def Literal.render : Literal → String
  | text value => "\"" ++ value ++ "\""
  | number value => value.render
  | boolean true => "true"
  | boolean false => "false"

namespace Ty

def parenthesize (text : String) (wrapped : Bool) : String :=
  if wrapped then "(" ++ text ++ ")" else text

def commaSeparated (texts : List String) : String := ", ".intercalate texts

mutual

/-- The text of a type. Parentheses stand only where it would otherwise read as another type. -/
def render : Ty → String
  | primitive kind => kind.keyword
  | literal value => value.render
  | array element => parenthesize element.render element.isCompound ++ "[]"
  | tuple elements => "[" ++ commaSeparated (renderAll elements) ++ "]"
  | object ⟨_, _, some name, _⟩ => name
  | object ⟨properties, index, none, _⟩ =>
    "\x7b" ++ commaSeparated (renderProperties properties ++ renderIndex index) ++ "\x7d"
  | record key value => "Record<" ++ key.render ++ ", " ++ value.render ++ ">"
  | unionOf members => " | ".intercalate (renderAlternatives members)
  | intersectionOf members => " & ".intercalate (renderFactors members)
  | anyFunction => "function"
  | function ⟨typeParams, params, result⟩ =>
    (if typeParams.isEmpty then "" else "<" ++ commaSeparated (renderTypeParams typeParams) ++ ">") ++
      "(" ++ commaSeparated (renderParams 0 params) ++ ") => " ++ result.render
  | ref name => name
  | keyof subject => "keyof " ++ parenthesize subject.render subject.isCompound
  | predicate parameter guard => parameter ++ " is " ++ guard.render
termination_by structural ty => ty

def renderAll : List Ty → List String
  | [] => []
  | ty :: tys => ty.render :: renderAll tys
termination_by structural tys => tys

/-- The members of a union. -/
def renderAlternatives : List Ty → List String
  | [] => []
  | ty :: tys => parenthesize ty.render ty.isFunction :: renderAlternatives tys
termination_by structural tys => tys

/-- The members of an intersection. -/
def renderFactors : List Ty → List String
  | [] => []
  | ty :: tys => parenthesize ty.render (ty.isUnion || ty.isFunction) :: renderFactors tys
termination_by structural tys => tys

/-- Parameters have no names of their own and are numbered from `i`. -/
def renderParams (i : Nat) : List Ty → List String
  | [] => []
  | ty :: tys => ("p" ++ i.repr ++ ": " ++ ty.render) :: renderParams (i + 1) tys
termination_by structural tys => tys

def renderProperties : List (Property Ty) → List String
  | [] => []
  | ⟨name, ty, optional⟩ :: properties =>
    (name ++ (if optional then "?" else "") ++ ": " ++ ty.render) :: renderProperties properties
termination_by structural properties => properties

def renderIndex : Option (IndexSignature Ty) → List String
  | none => []
  | some ⟨key, value⟩ => ["[key: " ++ key.render ++ "]: " ++ value.render]
termination_by structural index => index

def renderTypeParams : List (TypeParam Ty) → List String
  | [] => []
  | ⟨name, none⟩ :: params => name :: renderTypeParams params
  | ⟨name, some constraint⟩ :: params =>
    (name ++ " extends " ++ constraint.render) :: renderTypeParams params
termination_by structural params => params

end

end Ty

end StructuralTypes
