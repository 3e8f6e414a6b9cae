import StructuralTypes.Message
import StructuralTypes.Ty.Render

set_option autoImplicit false

namespace StructuralTypes

inductive Category where
  | error
  | warning
deriving DecidableEq

/-- What a report is about, with the different wordings for one thing taken together. -/
inductive Kind where
  | typeMismatch
  | missingProperty
  | excessProperty
  | inferenceConflict
  | constraintViolation
  | typeArgumentCount
  | argumentCount
  | notCallable
  | unresolvedAlias
  | circularAlias
deriving DecidableEq

inductive Code where
  | notAssignable
  | argumentNotAssignable
  | explicitArgumentMismatch
  | propertyMismatch
  | missingProperty
  | excessProperty
  | inferenceConflict
  | constraintViolation
  | typeArgumentCount
  | argumentCount
  | notCallable
  | cannotFindType
  | circularAlias
  | aliasTooDeep
deriving DecidableEq

namespace Code

def all : List Code :=
  [notAssignable, argumentNotAssignable, explicitArgumentMismatch, propertyMismatch,
    missingProperty, excessProperty, inferenceConflict, constraintViolation, typeArgumentCount,
    argumentCount, notCallable, cannotFindType, circularAlias, aliasTooDeep]

def number : Code → Nat
  | notAssignable => 2001
  | argumentNotAssignable => 2002
  | explicitArgumentMismatch => 2003
  | propertyMismatch => 2004
  | missingProperty => 2010
  | excessProperty => 2011
  | inferenceConflict => 2020
  | constraintViolation => 2021
  | typeArgumentCount => 2022
  | argumentCount => 2023
  | notCallable => 2024
  | cannotFindType => 2030
  | circularAlias => 2031
  | aliasTooDeep => 2032

def ofNumber? (n : Nat) : Option Code := all.find? (fun code => code.number == n)

/-- The placeholder for the argument with index `i`. -/
def hole (i : Nat) : String := "\x7b" ++ i.repr ++ "\x7d"

def template : Code → String
  | notAssignable => "Type '" ++ hole 0 ++ "' is not assignable to type '" ++ hole 1 ++ "'"
  | argumentNotAssignable =>
    "Argument of type '" ++ hole 0 ++ "' is not assignable to parameter of type '" ++ hole 1 ++ "'"
  | explicitArgumentMismatch => "expected " ++ hole 0 ++ " but got " ++ hole 1
  | propertyMismatch =>
    "Property '" ++ hole 0 ++ "' has type " ++ hole 1 ++ " but expected " ++ hole 2
  | missingProperty => "Missing property '" ++ hole 0 ++ "'"
  | excessProperty => "Excess property '" ++ hole 0 ++ "'"
  | inferenceConflict =>
    "Type parameter " ++ hole 0 ++ " inferred as both " ++ hole 1 ++ " and " ++ hole 2
  | constraintViolation => hole 0 ++ " does not satisfy constraint " ++ hole 1
  | typeArgumentCount => "Expected " ++ hole 0 ++ " type argument(s) but got " ++ hole 1
  | argumentCount => "Expected " ++ hole 0 ++ " argument(s) but got " ++ hole 1
  | notCallable => "Type '" ++ hole 0 ++ "' has no call signatures"
  | cannotFindType => "Cannot find type '" ++ hole 0 ++ "'"
  | circularAlias => "Type alias '" ++ hole 0 ++ "' circularly references itself"
  | aliasTooDeep =>
    "Type alias '" ++ hole 0 ++ "' exceeds the maximum resolution depth of " ++ hole 1

/-- Only a reference to an undeclared name is a warning. -/
def category : Code → Category
  | cannotFindType => .warning
  | _ => .error

def kind : Code → Kind
  | notAssignable | argumentNotAssignable | explicitArgumentMismatch | propertyMismatch =>
    .typeMismatch
  | missingProperty => .missingProperty
  | excessProperty => .excessProperty
  | inferenceConflict => .inferenceConflict
  | constraintViolation => .constraintViolation
  | typeArgumentCount => .typeArgumentCount
  | argumentCount => .argumentCount
  | notCallable => .notCallable
  | cannotFindType => .unresolvedAlias
  | circularAlias | aliasTooDeep => .circularAlias

end Code

/-- The code that a kind is reported under when nothing more specific is known. -/
def Kind.code : Kind → Code
  | typeMismatch => .notAssignable
  | missingProperty => .missingProperty
  | excessProperty => .excessProperty
  | inferenceConflict => .inferenceConflict
  | constraintViolation => .constraintViolation
  | typeArgumentCount => .typeArgumentCount
  | argumentCount => .argumentCount
  | notCallable => .notCallable
  | unresolvedAlias => .cannotFindType
  | circularAlias => .circularAlias

/-- A report at a place of the program that is checked. -/
structure Diagnostic (Location : Type) where
  message : String
  category : Category
  code : Nat
  location : Location

namespace Diagnostic

variable {Location : Type}

def isError (d : Diagnostic Location) : Bool := d.category == .error

def kind? (d : Diagnostic Location) : Option Kind := (Code.ofNumber? d.code).map Code.kind

/-- The report of a code with the given arguments for its placeholders. -/
def ofCode (location : Location) (code : Code) (args : List String) : Diagnostic Location where
  message := Message.fill code.template args
  category := code.category
  code := code.number
  location := location

end Diagnostic

/-- The cause of a report. -/
inductive Finding where
  | notAssignable (source target : Ty)
  | argumentNotAssignable (argument param : Ty)
  | explicitArgumentMismatch (expected got : Ty)
  | propertyMismatch (path : String) (actual expected : Ty)
  | missingProperty (path : String)
  | excessProperty (path : String)
  | inferenceConflict (param : String) (first second : Ty)
  | constraintViolation (param : String) (constraint : Ty)
  | typeArgumentCount (expected got : Nat)
  | argumentCount (expected got : Nat)
  | notCallable (callee : Ty)
  | cannotFindType (name : String)
  | circularAlias (name : String)
  | aliasTooDeep (name : String) (limit : Nat)

namespace Finding

def code : Finding → Code
  | notAssignable _ _ => .notAssignable
  | argumentNotAssignable _ _ => .argumentNotAssignable
  | explicitArgumentMismatch _ _ => .explicitArgumentMismatch
  | propertyMismatch _ _ _ => .propertyMismatch
  | missingProperty _ => .missingProperty
  | excessProperty _ => .excessProperty
  | inferenceConflict _ _ _ => .inferenceConflict
  | constraintViolation _ _ => .constraintViolation
  | typeArgumentCount _ _ => .typeArgumentCount
  | argumentCount _ _ => .argumentCount
  | notCallable _ => .notCallable
  | cannotFindType _ => .cannotFindType
  | circularAlias _ => .circularAlias
  | aliasTooDeep _ _ => .aliasTooDeep

/-- The texts for the placeholders of the code's template. -/
def args : Finding → List String
  | notAssignable source target => [source.render, target.render]
  | argumentNotAssignable argument param => [argument.render, param.render]
  | explicitArgumentMismatch expected got => [expected.render, got.render]
  | propertyMismatch path actual expected => [path, actual.render, expected.render]
  | missingProperty path => [path]
  | excessProperty path => [path]
  | inferenceConflict param first second => [param, first.render, second.render]
  | constraintViolation param constraint => [param, constraint.render]
  | typeArgumentCount expected got => [expected.repr, got.repr]
  | argumentCount expected got => [expected.repr, got.repr]
  | notCallable callee => [callee.render]
  | cannotFindType name => [name]
  | circularAlias name => [name]
  | aliasTooDeep name limit => [name, limit.repr]

def report {Location : Type} (finding : Finding) (location : Location) : Diagnostic Location :=
  .ofCode location finding.code finding.args

end Finding

end StructuralTypes
