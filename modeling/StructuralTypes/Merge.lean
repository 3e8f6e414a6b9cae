import StructuralTypes.Alias

set_option autoImplicit false

namespace StructuralTypes

section Leaves

mutual

/-- The leaves of a type from left to right, and the names seen so far. A name is expanded where it
is first met and passed over afterwards. -/
def Ty.leavesWith (expand : List String → String → List Ty × List String) (seen : List String) :
    Ty → List Ty × List String
  | .intersectionOf members => Ty.leavesOfAll expand seen members
  | .ref name => if seen.contains name then ([], seen) else expand (name :: seen) name
  | ty => ([ty], seen)
termination_by structural ty => ty

def Ty.leavesOfAll (expand : List String → String → List Ty × List String) (seen : List String) :
    List Ty → List Ty × List String
  | [] => ([], seen)
  | ty :: tys =>
    let (first, seen) := ty.leavesWith expand seen
    let (rest, seen) := Ty.leavesOfAll expand seen tys
    (first ++ rest, seen)
termination_by structural tys => tys

end

/-- The leaves of what a name stands for. Each expansion inside of another is of a further name, so
there are never more of them than definitions. -/
def AliasMap.expandLeaves (aliases : AliasMap) :
    Nat → List String → String → List Ty × List String
  | 0, seen, name => ([.ref name], seen)
  | left + 1, seen, name =>
    match aliases.resolve (.ref name) with
    | .ref other => ([.ref other], seen)
    | ty => ty.leavesWith (aliases.expandLeaves left) seen

def AliasMap.leaves (aliases : AliasMap) (ty : Ty) : List Ty :=
  (ty.leavesWith (aliases.expandLeaves (aliases.size + 1)) []).1

end Leaves

/-- A property of both sides has both types, and is optional only if it is so on both sides. -/
def meetProperty (properties : List (Property Ty)) (property : Property Ty) : List (Property Ty) :=
  match findProperty? property.name properties with
  | none => properties ++ [property]
  | some first =>
    putProperty
      { name := property.name
        ty := .intersection [first.ty, property.ty]
        optional := first.optional && property.optional }
      properties

/-- The key of the first index signature stays. -/
def meetIndex : Option (IndexSignature Ty) → Option (IndexSignature Ty) →
    Option (IndexSignature Ty)
  | none, second => second
  | first, none => first
  | some first, some second => some ⟨first.key, .intersection [first.value, second.value]⟩

/-- The slots of both shapes, as an ordinary object without a class. -/
def Shape.meet (first second : Shape Ty) : Shape Ty where
  properties := second.properties.foldl meetProperty first.properties
  index := meetIndex first.index second.index

inductive Merged where
  | shape (shape : Shape Ty)
  | any
  /-- Some leaf is neither an object nor a record. -/
  | notMergeable

/-- Merges leaves. That some leaf is `any` outweighs that some leaf has no shape. -/
def mergeLeaves (leaves : List Ty) : Merged :=
  if leaves.any Ty.isAny then .any
  else if leaves.any (fun leaf => leaf.asShape?.isNone) then .notMergeable
  else .shape ((leaves.filterMap Ty.asShape?).foldl Shape.meet {})

def AliasMap.merge (aliases : AliasMap) (ty : Ty) : Merged := mergeLeaves (aliases.leaves ty)

end StructuralTypes
