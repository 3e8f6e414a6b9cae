import StructuralTypes.Number

set_option autoImplicit false

namespace StructuralTypes

/-- The keyword types. -/
inductive Primitive where
  | string
  | number
  | boolean
  | null
  | undefined
  | any
  | never
  | void
deriving DecidableEq, Inhabited

namespace Primitive

def keyword : Primitive → String
  | string => "string"
  | number => "number"
  | boolean => "boolean"
  | null => "null"
  | undefined => "undefined"
  | any => "any"
  | never => "never"
  | void => "void"

def isNullish : Primitive → Bool
  | null | undefined => true
  | _ => false

end Primitive

/-- The one value of a literal type. -/
inductive Literal where
  | text (value : String)
  | number (value : Number)
  | boolean (value : Bool)
deriving DecidableEq, Inhabited

namespace Literal

/-- The keyword type that a literal belongs to. -/
def base : Literal → Primitive
  | text _ => .string
  | number _ => .number
  | boolean _ => .boolean

def isFalsy : Literal → Bool
  | text s => s.isEmpty
  | number n => n.isFalsy
  | boolean b => !b

def same : Literal → Literal → Bool
  | text a, text b => a == b
  | number a, number b => a.same b
  | boolean a, boolean b => a == b
  | _, _ => false

end Literal

/-- A named slot of an object. -/
structure Property (α : Type) where
  name : String
  ty : α
  optional : Bool := false

/-- The type of every slot that has no name of its own. -/
structure IndexSignature (α : Type) where
  key : α
  value : α

/-- The slots of an object type. -/
structure Shape (α : Type) where
  /-- In declaration order, each name once. -/
  properties : List (Property α) := []
  index : Option (IndexSignature α) := none
  className : Option String := none
  /-- The type of an object literal that is not yet bound to a variable. -/
  fresh : Bool := false

/-- A type parameter of a function or an alias, with the type it must extend. -/
structure TypeParam (α : Type) where
  name : String
  constraint : Option α := none

/-- The parameters and the result of a function. -/
structure Signature (α : Type) where
  typeParams : List (TypeParam α) := []
  params : List α
  result : α

/-- A node for a union or an intersection holds its members as they are; `Ty.union` and
`Ty.intersection` build normalized ones. -/
inductive Ty where
  | primitive (kind : Primitive)
  | literal (value : Literal)
  | array (element : Ty)
  | tuple (elements : List Ty)
  | object (shape : Shape Ty)
  | record (key value : Ty)
  | unionOf (members : List Ty)
  | intersectionOf (members : List Ty)
  /-- The function type that leaves its parameters open. -/
  | anyFunction
  | function (signature : Signature Ty)
  | ref (name : String)
  | keyof (subject : Ty)
  /-- The result of a guard function: `parameter is guard`. -/
  | predicate (parameter : String) (guard : Ty)
deriving Inhabited

section Properties

variable {α : Type}

/-- The first property with the given name. -/
def findProperty? (name : String) (properties : List (Property α)) : Option (Property α) :=
  properties.find? (·.name == name)

/-- Adds a property, or replaces the one with its name where that stands. -/
def putProperty (property : Property α) : List (Property α) → List (Property α)
  | [] => [property]
  | p :: ps => if p.name = property.name then property :: ps else p :: putProperty property ps

namespace Shape

def property? (shape : Shape α) (name : String) : Option (Property α) :=
  findProperty? name shape.properties

def put (shape : Shape α) (property : Property α) : Shape α :=
  { shape with properties := putProperty property shape.properties }

def isEmpty (shape : Shape α) : Bool := shape.properties.isEmpty && shape.index.isNone

/-- A shape with the given required properties. A later type for a name replaces an earlier one. -/
def ofProperties (slots : List (String × α)) : Shape α :=
  slots.foldl (fun shape slot => shape.put { name := slot.1, ty := slot.2 }) {}

/-- A record is an object with nothing but an index signature. -/
def ofRecord (key value : α) : Shape α := { index := some ⟨key, value⟩ }

end Shape

end Properties

namespace Ty

@[match_pattern] abbrev string : Ty := .primitive .string
@[match_pattern] abbrev number : Ty := .primitive .number
@[match_pattern] abbrev boolean : Ty := .primitive .boolean
@[match_pattern] abbrev null : Ty := .primitive .null
@[match_pattern] abbrev undefined : Ty := .primitive .undefined
@[match_pattern] abbrev any : Ty := .primitive .any
@[match_pattern] abbrev never : Ty := .primitive .never
@[match_pattern] abbrev void : Ty := .primitive .void

def isAny : Ty → Bool
  | any => true
  | _ => false

def isNever : Ty → Bool
  | never => true
  | _ => false

def isNullish : Ty → Bool
  | primitive kind => kind.isNullish
  | _ => false

def isUnion : Ty → Bool
  | unionOf _ => true
  | _ => false

def isIntersection : Ty → Bool
  | intersectionOf _ => true
  | _ => false

def isLiteral : Ty → Bool
  | literal _ => true
  | _ => false

def isFunction : Ty → Bool
  | anyFunction | function _ => true
  | _ => false

/-- Types that are written with an operator. They stand in parentheses as array elements and under
`keyof`. -/
def isCompound : Ty → Bool
  | unionOf _ | intersectionOf _ | anyFunction | function _ | keyof _ => true
  | _ => false

def primitive? : Ty → Option Primitive
  | primitive kind => some kind
  | _ => none

def literal? : Ty → Option Literal
  | literal value => some value
  | _ => none

def refName? : Ty → Option String
  | ref name => some name
  | _ => none

def objectShape? : Ty → Option (Shape Ty)
  | object shape => some shape
  | _ => none

/-- An object or a record as a shape. -/
def asShape? : Ty → Option (Shape Ty)
  | object shape => some shape
  | record key value => some (.ofRecord key value)
  | _ => none

def isFreshLiteral : Ty → Bool
  | object shape => shape.fresh
  | _ => false

/-- The members of a union; any other type is its own only member. -/
def unionMembers : Ty → List Ty
  | unionOf members => members
  | ty => [ty]

/-- The members of an intersection; any other type is its own only member. -/
def intersectionMembers : Ty → List Ty
  | intersectionOf members => members
  | ty => [ty]

mutual

/-- The number of nodes. -/
def size : Ty → Nat
  | primitive _ | literal _ | anyFunction | ref _ => 1
  | array element => element.size + 1
  | tuple elements => sizeAll elements + 1
  | object ⟨properties, none, _, _⟩ => sizeProperties properties + 1
  | object ⟨properties, some ⟨key, value⟩, _, _⟩ =>
    sizeProperties properties + key.size + value.size + 1
  | record key value => key.size + value.size + 1
  | unionOf members => sizeAll members + 1
  | intersectionOf members => sizeAll members + 1
  | function ⟨typeParams, params, result⟩ =>
    sizeTypeParams typeParams + sizeAll params + result.size + 1
  | keyof subject => subject.size + 1
  | predicate _ guard => guard.size + 1
termination_by structural ty => ty

def sizeAll : List Ty → Nat
  | [] => 0
  | ty :: tys => ty.size + sizeAll tys
termination_by structural tys => tys

def sizeProperties : List (Property Ty) → Nat
  | [] => 0
  | ⟨_, ty, _⟩ :: properties => ty.size + sizeProperties properties
termination_by structural properties => properties

def sizeTypeParams : List (TypeParam Ty) → Nat
  | [] => 0
  | ⟨_, none⟩ :: params => sizeTypeParams params
  | ⟨_, some constraint⟩ :: params => constraint.size + sizeTypeParams params
termination_by structural params => params

end

end Ty

end StructuralTypes
