import StructuralTypes.Keyof
import StructuralTypes.Merge

set_option autoImplicit false

namespace StructuralTypes

/-- The question whether a value of one type may go where a target type is expected. -/
structure Query where
  value : Ty
  target : Ty

instance : BEq Query where
  beq a b := a.value.same b.value && a.target.same b.target

/-- One of the conditions that are tried in order. -/
inductive Demand where
  | refuse
  | query (query : Query)

/-- How the answer to a query follows from others. -/
inductive Rule where
  | allOf (demands : List Demand)
  | anyOf (queries : List Query)

namespace Rule

def verdict (answer : Bool) : Rule := .allOf (if answer then [] else [.refuse])

def allQueries (queries : List Query) : Rule := .allOf (queries.map .query)

end Rule

namespace Query

/-- Answers that need no rule. -/
def settled? (q : Query) : Option Bool :=
  if q.target.isAny || q.value.isAny then some true
  else if q.value.isNever then some true
  else if q.target.isNever then some false
  else if q.value.same q.target then some true
  else none

def concrete (q : Query) (aliases : AliasMap) : Query :=
  ⟨aliases.concrete q.value, aliases.concrete q.target⟩

end Query

namespace Rule

/-- A union accepts what one of its members accepts. -/
def unionTarget (value : Ty) (members : List Ty) : Rule :=
  if value.isAmong members then verdict true else .anyOf (members.map (⟨value, ·⟩))

/-- An intersection is accepted where one of its members is, or where its merged shape is. -/
def intersectionSource (aliases : AliasMap) (members : List Ty) (target : Ty) : Rule :=
  let mergedQuery : List Query :=
    match target.asShape?, aliases.merge (.intersectionOf members) with
    | some _, .shape shape => [⟨.object shape, target⟩]
    | _, _ => []
  .anyOf (members.map (⟨·, target⟩) ++ mergedQuery)

/-- The demand of one target property on a source shape. An index signature of the source stands in
for a required property that the source does not name. -/
def propertyDemands (source : Shape Ty) (slot : Property Ty) : List Demand :=
  match source.property? slot.name with
  | some property =>
    if property.optional && !slot.optional then [.refuse]
    else [.query ⟨property.ty, slot.declared⟩]
  | none =>
    if slot.optional then []
    else
      match source.index with
      | some index => [.query ⟨index.value, slot.ty⟩]
      | none => [.refuse]

/-- The demands of a target index signature: all slots of the source have its value type. -/
def indexDemands (source : Shape Ty) (index : IndexSignature Ty) : List Demand :=
  source.properties.map (fun property => .query ⟨property.ty, index.value⟩) ++
    source.index.toList.map (fun own => .query ⟨own.value, index.value⟩)

/-- Objects of one class are compatible whatever their slots. -/
def sameClass (source target : Shape Ty) : Bool :=
  source.className.isSome && source.className == target.className

def shapes (source target : Shape Ty) : Rule :=
  if sameClass source target then verdict true
  else
    .allOf (target.properties.flatMap (propertyDemands source) ++
      target.index.toList.flatMap (indexDemands source))

/-- Equal types are identical, and so are types that are compatible in both directions. -/
def identical (a b : Ty) : List Query := if a.same b then [] else [⟨a, b⟩, ⟨b, a⟩]

/-- Parameters are identical, and results are compatible in both directions. -/
def signatures (source target : Signature Ty) : Rule :=
  if source.params.length = target.params.length then
    allQueries
      ((source.params.zip target.params).flatMap (fun (s, t) => identical s t) ++
        [⟨source.result, target.result⟩, ⟨target.result, source.result⟩])
  else verdict false

/-- The rules for types that are neither unions nor intersections. -/
def structural : Ty → Ty → Rule
  | .literal a, .primitive kind => verdict (a.base == kind)
  | .literal a, .literal b => verdict (a.same b)
  | .array a, .array b => allQueries [⟨a, b⟩]
  | .tuple as, .tuple bs =>
    if as.length = bs.length then allQueries ((as.zip bs).map (fun (a, b) => ⟨a, b⟩))
    else verdict false
  | .tuple as, .array b => allQueries (as.map (⟨·, b⟩))
  | .object source, .object target => shapes source target
  | .object source, .record key value => shapes source (.ofRecord key value)
  | .record key value, .object target => shapes (.ofRecord key value) target
  | .record key value, .record key' value' => shapes (.ofRecord key value) (.ofRecord key' value')
  | .anyFunction, .anyFunction => verdict true
  | .anyFunction, .function _ => verdict true
  | .function _, .anyFunction => verdict true
  | .function source, .function target => signatures source target
  | .predicate _ _, .boolean => verdict true
  | .primitive a, .primitive b => verdict (a == b)
  | _, _ => verdict false

/-- The rule for a concrete query. A union on the target side comes first, then one on the source
side, then intersections in the same order. -/
def of (aliases : AliasMap) (q : Query) : Rule :=
  match q.target, q.value with
  | .unionOf _, .unionOf sources => allQueries (sources.map (⟨·, q.target⟩))
  | .unionOf members, _ => unionTarget q.value members
  | _, .unionOf sources => allQueries (sources.map (⟨·, q.target⟩))
  | .intersectionOf members, _ => allQueries (members.map (⟨q.value, ·⟩))
  | _, .intersectionOf members => intersectionSource aliases members q.target
  | _, _ => structural q.value q.target

end Rule

end StructuralTypes
