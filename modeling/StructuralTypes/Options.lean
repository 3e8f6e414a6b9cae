import StructuralTypes.Digits
import StructuralTypes.Json

set_option autoImplicit false

namespace StructuralTypes

structure Options where
  /-- The number of names that one resolution of an alias follows. -/
  maxAliasDepth : Nat := 50
  /-- The nesting depth of one comparison of two types. -/
  maxDepth : Nat := 100
  /-- Report properties of an object literal that its target does not declare. -/
  excessProperties : Bool := true
  /-- Infer a keyword type from two different literals of it. -/
  widenLiterals : Bool := true
deriving DecidableEq, Inhabited

namespace Options

inductive Field where
  | maxAliasDepth
  | maxDepth
  | excessProperties
  | widenLiterals
deriving DecidableEq

namespace Field

/-- In declaration order. -/
def all : List Field := [maxAliasDepth, maxDepth, excessProperties, widenLiterals]

def key : Field → String
  | maxAliasDepth => "maxAliasResolutionDepth"
  | maxDepth => "maxCompatibilityDepth"
  | excessProperties => "excessPropertyChecks"
  | widenLiterals => "widenInferredLiterals"

def ofKey? (key : String) : Option Field := all.find? (fun field => field.key == key)

end Field

/-- The greatest number of 32 bits. -/
abbrev maxLimit : Nat := 4294967295

/-- A whole number of 32 bits, written with digits only. -/
def limit? : Json → Option Nat
  | .number digits => (Digits.value? digits.toList).filter (· ≤ maxLimit)
  | _ => none

def flag? : Json → Option Bool
  | .bool value => some value
  | _ => none

def set? (options : Options) (field : Field) (value : Json) : Option Options :=
  match field with
  | .maxAliasDepth => (limit? value).map (fun n => { options with maxAliasDepth := n })
  | .maxDepth => (limit? value).map (fun n => { options with maxDepth := n })
  | .excessProperties => (flag? value).map (fun b => { options with excessProperties := b })
  | .widenLiterals => (flag? value).map (fun b => { options with widenLiterals := b })

/-- Sets the named fields. Names of no field are passed over, and a field is set once at most. -/
def ofMembers? (options : Options) (seen : List Field) :
    List (Option String × Json) → Option Options
  | [] => some options
  | (none, _) :: _ => none
  | (some name, value) :: rest =>
    match Field.ofKey? name with
    | none => ofMembers? options seen rest
    | some field => do
      guard (!seen.contains field)
      ofMembers? (← options.set? field value) (field :: seen) rest

/-- Sets fields in declaration order. -/
def ofItems? (options : Options) : List Field → List Json → Option Options
  | _, [] => some options
  | [], _ :: _ => none
  | field :: fields, value :: values => do
    ofItems? (← options.set? field value) fields values

/-- Options are an object of named fields or an array of fields in declaration order; a field that
is left out keeps its default. -/
def ofJson? : Json → Option Options
  | .object members => ofMembers? {} [] members
  | .array items => ofItems? {} Field.all items
  | _ => none

def parse? (source : String) : Option Options := Json.parse? source >>= ofJson?

end Options

end StructuralTypes
