import StructuralTypes.Checker
import StructuralTypes.Mismatch

set_option autoImplicit false

namespace StructuralTypes.CheckM

/-- What is found out about the types of a property. -/
inductive Verdict where
  | accepted
  /-- No reason is looked for when there are no steps left. -/
  | refused (reason? : Option Mismatch)

/-- The first item of a list that is refused. -/
def firstRefused {α : Type} (accepts : α → CheckM Bool) : List α → CheckM (Option α)
  | [] => return none
  | a :: as => do
    if ← accepts a then firstRefused accepts as else return some a

/-- The first refused pair of types at the same position. -/
def firstRefusedPair (accepts : Ty → Ty → CheckM Bool) (sources targets : List Ty) :
    CheckM (Option ((Ty × Ty) × Nat)) :=
  firstRefused (fun ((s, t), _) => accepts s t) (sources.zip targets).zipIdx

/-- The reason that lies in one target property, if there is one. `explain` looks inside of a property
that both sides have. -/
def explainProperty (ctx : Context) (explain : Ty → Ty → CheckM Verdict) (source : Shape Ty)
    (slot : Property Ty) : CheckM (Option Mismatch) := do
  match source.property? slot.name with
  | some property =>
    if property.optional && !slot.optional then return some (.optionalProperty slot.name)
    match ← explain property.ty slot.declared with
    | .accepted => return none
    | .refused reason? =>
      return some (.propertyType slot.name property.ty slot.ty
        (reason?.filter Mismatch.isAboutProperty))
  | none =>
    if slot.optional then return none
    match source.index with
    | none => return some (.missingProperty slot.name)
    | some index =>
      if ← isCompatible ctx index.value slot.ty then return none
      return some (.indexValue index.value slot.ty)

/-- The reason that lies in the first target property with one. -/
def explainProperties (ctx : Context) (explain : Ty → Ty → CheckM Verdict) (source : Shape Ty) :
    List (Property Ty) → CheckM (Option Mismatch)
  | [] => return none
  | slot :: slots => do
    match ← explainProperty ctx explain source slot with
    | some reason => return some reason
    | none => explainProperties ctx explain source slots

/-- The reason that lies in the target's index signature. -/
def explainIndex (ctx : Context) (source : Shape Ty) (index : IndexSignature Ty) :
    CheckM (Option Mismatch) := do
  match ← firstRefused (fun p => isCompatible ctx p.ty index.value) source.properties with
  | some property => return some (.propertyType property.name property.ty index.value none)
  | none => return source.index.map (fun own => .indexValue own.value index.value)

def explainShapes (ctx : Context) (explain : Ty → Ty → CheckM Verdict) (source target : Shape Ty) :
    CheckM (Option Mismatch) := do
  match ← explainProperties ctx explain source target.properties with
  | some reason => return some reason
  | none =>
    match target.index with
    | some index => explainIndex ctx source index
    | none => return none

def explainSignatures (ctx : Context) (source target : Signature Ty) : CheckM Mismatch := do
  if source.params.length ≠ target.params.length then
    return .paramCount source.params.length target.params.length
  match ← firstRefusedPair (isIdentical ctx) source.params target.params with
  | some ((s, t), i) => return .param i s t
  | none => return .result source.result target.result

/-- The reason for a refused pair of concrete types. -/
def explainConcrete (ctx : Context) (explain : Ty → Ty → CheckM Verdict) (value target : Ty) :
    CheckM Mismatch := do
  let other := Mismatch.other value target
  match value, target with
  | .unionOf sources, .unionOf members =>
    match ← firstRefused (fun member => isCompatible ctx member target) sources with
    | some member => return .sourceMember member target
    | none => return .noMember value members
  | _, .unionOf members => return .noMember value members
  | .unionOf sources, _ =>
    match ← firstRefused (fun member => isCompatible ctx member target) sources with
    | some member => return .sourceMember member target
    | none => return other
  | _, .intersectionOf members =>
    match ← firstRefused (fun member => isCompatible ctx value member) members with
    | some member => return .targetMember member
    | none => return other
  | .literal _, .literal _ | .literal _, .primitive _ => return .literal value target
  | .primitive _, .primitive _ | .primitive _, .literal _ => return .primitive value target
  | .array s, .array t => return .arrayElement s t
  | .tuple ss, .tuple ts =>
    if ss.length ≠ ts.length then return .elementCount ss.length ts.length
    match ← firstRefusedPair (isCompatible ctx) ss ts with
    | some ((s, t), i) => return .tupleElement i s t
    | none => return other
  | .tuple ss, .array t =>
    match ← firstRefusedPair (isCompatible ctx) ss (ss.map fun _ => t) with
    | some ((s, t), i) => return .tupleElement i s t
    | none => return other
  | .function s, .function t => explainSignatures ctx s t
  | _, _ =>
    match value.asShape?, target.asShape? with
    | some source, some shape => return (← explainShapes ctx explain source shape).getD other
    | _, _ => return other

/-- Why a value of the first type may not go where the second is expected; nothing if it may. -/
def explainPair (ctx : Context) (explain : Ty → Ty → CheckM Verdict) (value target : Ty) :
    CheckM (Option Mismatch) := do
  if ← isCompatible ctx value target then return none
  if ← limitExceeded then return some .limit
  return some (← explainConcrete ctx explain (ctx.aliases.concrete value)
    (ctx.aliases.concrete target))

/-- Follows properties inwards. Every one that is looked into takes one step. -/
def explainWithin (ctx : Context) : Nat → Ty → Ty → CheckM Verdict
  | 0, value, target => do
    if ← isCompatible ctx value target then return .accepted
    return .refused none
  | steps + 1, value, target => do
    match ← explainPair ctx (explainWithin ctx steps) value target with
    | none => return .accepted
    | some reason => return .refused (some reason)

/-- The types that are met on the way inwards are nodes of the two types and of the bodies. An
explanation that ends meets no pair of them twice, so it takes no more than this many steps. -/
def explainSteps (ctx : Context) (value target : Ty) : Nat :=
  let nodes := value.size + target.size + ctx.aliases.bodySize
  nodes * nodes

def explain (ctx : Context) (value target : Ty) : CheckM (Option Mismatch) :=
  explainPair ctx (explainWithin ctx (explainSteps ctx value target)) value target

end StructuralTypes.CheckM
