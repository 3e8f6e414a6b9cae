import StructuralTypes.Ty.Names
import StructuralTypes.Ty.Substitution

set_option autoImplicit false

namespace StructuralTypes

structure AliasDefinition where
  name : String
  typeParams : List (TypeParam Ty) := []
  body : Ty

namespace AliasDefinition

def isGeneric (d : AliasDefinition) : Bool := !d.typeParams.isEmpty

/-- A name for a type. The type parameters of a generic function become those of the name. -/
def ofBody (name : String) (body : Ty) : AliasDefinition :=
  match body with
  | .function signature => ⟨name, signature.typeParams, body⟩
  | _ => ⟨name, [], body⟩

/-- A name with the given type parameters, each with the first constraint that is given for it.
Without parameters it is a name for its body. -/
def ofParams (name : String) (params : List String) (constraints : List (String × Ty))
    (body : Ty) : AliasDefinition :=
  if params.isEmpty then ofBody name body
  else ⟨name, params.map (fun param => ⟨param, constraints.lookup param⟩), body⟩

end AliasDefinition

structure AliasMap where
  /-- In declaration order, each name once. -/
  definitions : List AliasDefinition := []
  /-- The number of names that one resolution follows. -/
  maxDepth : Nat := 50

/-- Why a chain of references has no end. -/
inductive ResolutionError where
  /-- The chain comes back to `name`; it is listed up to and including the return. -/
  | circular (name : String) (chain : List String)
  /-- The chain reaches `name` after as many others as a resolution follows. -/
  | tooDeep (name : String) (limit : Nat)

namespace ResolutionError

/-- The name at which resolution stopped. -/
def name : ResolutionError → String
  | circular name _ => name
  | tooDeep name _ => name

def message : ResolutionError → String
  | circular name _ => "type alias '" ++ name ++ "' circularly references itself"
  | tooDeep name limit =>
    "type alias '" ++ name ++ "' exceeds the maximum resolution depth of " ++ limit.repr

end ResolutionError

namespace AliasMap

def find? (aliases : AliasMap) (name : String) : Option AliasDefinition :=
  aliases.definitions.find? (fun d => d.name == name)

def contains (aliases : AliasMap) (name : String) : Bool := (aliases.find? name).isSome

def size (aliases : AliasMap) : Nat := aliases.definitions.length

/-- The nodes of all bodies. -/
def bodySize (aliases : AliasMap) : Nat := Ty.sizeAll (aliases.definitions.map (·.body))

/-- Adds a definition, or replaces the one of its name where that stands. -/
def insert (aliases : AliasMap) (d : AliasDefinition) : AliasMap :=
  { aliases with definitions := put aliases.definitions }
where
  put : List AliasDefinition → List AliasDefinition
    | [] => [d]
    | e :: es => if e.name = d.name then d :: es else e :: put es

/-- Follows references from a type; `chain` holds the names that were followed, and `left` is how
many more may be. -/
def follow (aliases : AliasMap) : Nat → List String → Ty → Except ResolutionError Ty
  | left, chain, .ref name =>
    match aliases.find? name with
    | none => .ok (.ref name)
    | some d =>
      if chain.contains name then .error (.circular name (chain ++ [name]))
      else
        match left with
        | 0 => .error (.tooDeep name aliases.maxDepth)
        | left + 1 => aliases.follow left (chain ++ [name]) d.body
  | _, _, ty => .ok ty

/-- The first type on the chain of references from `ty` that is not a declared name. -/
def tryResolve (aliases : AliasMap) (ty : Ty) : Except ResolutionError Ty :=
  aliases.follow aliases.maxDepth [] ty

/-- As `tryResolve`, but a chain without an end stops at the name where that is noticed. -/
def resolve (aliases : AliasMap) (ty : Ty) : Ty :=
  match aliases.tryResolve ty with
  | .ok resolved => resolved
  | .error e => .ref e.name

/-- The body of a definition with the given type arguments. Arguments that are missing are `any`,
and those of a name without type parameters are not looked at. -/
def instantiate (aliases : AliasMap) (name : String) (args : List Ty) : Ty :=
  match aliases.find? name with
  | none => .ref name
  | some d => if d.isGeneric then d.body.substitute (.ofArgs d.typeParams args) else d.body

/-- The undeclared names among the given ones, each where it first stands. -/
def undeclared (aliases : AliasMap) (names : List String) : List String :=
  (names.filter (fun name => !aliases.contains name)).eraseDups

end AliasMap

/-- How far a search has come. -/
structure ReferenceSearch where
  /-- The type parameters in scope, those of the innermost function last. -/
  bound : List String := []
  /-- The undeclared names that were met out of scope, in the order in which they were first met. -/
  missing : List String := []

abbrev SearchM := StateM ReferenceSearch

/-- How far the search has come after the given visits. -/
def SearchM.after (visits : SearchM Unit) (search : ReferenceSearch) : ReferenceSearch :=
  (visits.run search).2

namespace AliasMap

/-- Adds a name to the missing ones, unless it is declared or one of them. -/
def addMissing (aliases : AliasMap) (missing : List String) (name : String) : List String :=
  if aliases.contains name || missing.contains name then missing else missing ++ [name]

/-- Goes through a function that binds the given names. -/
def visitBinding (names : List String) (inner : SearchM Unit) : SearchM Unit := do
  let height := (← get).bound.length
  modify fun search => { search with bound := search.bound ++ names }
  inner
  modify fun search => { search with bound := search.bound.take height }

mutual

def visit (aliases : AliasMap) : Ty → SearchM Unit
  | .primitive _ | .literal _ | .anyFunction => return
  | .ref name =>
    modify fun search =>
      if search.bound.contains name then search
      else { search with missing := aliases.addMissing search.missing name }
  | .array element => aliases.visit element
  | .tuple elements => aliases.visitAll elements
  | .object ⟨properties, index, _, _⟩ => do
    aliases.visitProperties properties
    aliases.visitIndex index
  | .record key value => do
    aliases.visit key
    aliases.visit value
  | .unionOf members => aliases.visitAll members
  | .intersectionOf members => aliases.visitAll members
  | .function ⟨typeParams, params, result⟩ =>
    visitBinding (typeParams.map (·.name)) do
      aliases.visitConstraints typeParams
      aliases.visitAll params
      aliases.visit result
  | .keyof subject => aliases.visit subject
  | .predicate _ guard => aliases.visit guard
termination_by structural ty => ty

def visitAll (aliases : AliasMap) : List Ty → SearchM Unit
  | [] => return
  | ty :: tys => do
    aliases.visit ty
    aliases.visitAll tys
termination_by structural tys => tys

def visitProperties (aliases : AliasMap) : List (Property Ty) → SearchM Unit
  | [] => return
  | ⟨_, ty, _⟩ :: properties => do
    aliases.visit ty
    aliases.visitProperties properties
termination_by structural properties => properties

def visitIndex (aliases : AliasMap) : Option (IndexSignature Ty) → SearchM Unit
  | none => return
  | some ⟨key, value⟩ => do
    aliases.visit key
    aliases.visit value
termination_by structural index => index

def visitConstraints (aliases : AliasMap) : List (TypeParam Ty) → SearchM Unit
  | [] => return
  | ⟨_, none⟩ :: params => aliases.visitConstraints params
  | ⟨_, some constraint⟩ :: params => do
    aliases.visit constraint
    aliases.visitConstraints params
termination_by structural params => params

end

/-- The undeclared names that a type refers to. -/
def unresolvedReferences (aliases : AliasMap) (ty : Ty) : List String :=
  ((aliases.visit ty).after {}).missing

end AliasMap

end StructuralTypes
