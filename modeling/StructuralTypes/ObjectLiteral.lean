import StructuralTypes.Compatibility
import StructuralTypes.Diagnostic

set_option autoImplicit false

namespace StructuralTypes

namespace ObjectLiteral

/-- The dotted path of a property inside of the literal at `path?`. -/
def joinPath (path? : Option String) (name : String) : String :=
  match path? with
  | some path => path ++ "." ++ name
  | none => name

/-- The required target properties that a literal lacks. -/
def missing (path? : Option String) (literal target : List (Property Ty)) : List Finding :=
  (target.filter fun slot => !slot.optional && (findProperty? slot.name literal).isNone).map
    fun slot => .missingProperty (joinPath path? slot.name)

/-- The target's slot for a property: its own, or one of the index signature's value type. -/
def slot? (target : Shape Ty) (name : String) : Option (Property Ty) :=
  match target.property? name with
  | some slot => some slot
  | none => target.index.map (fun index => { name := name, ty := index.value })

/-- Keeps the shorter list of findings, the earlier one of two that are equally long. -/
def fewer (best? : Option (List Finding)) (findings : List Finding) : List Finding :=
  match best? with
  | some best => if findings.length < best.length then findings else best
  | none => findings

end ObjectLiteral

namespace Context

open ObjectLiteral

/-- A value that is no literal, or a target that has no shape, is only compared. -/
def fallback (ctx : Context) (path? : Option String) (value target : Ty) :
    Limited (List Finding) := do
  if ← ctx.compatible value target then return []
  match path? with
  | some path => return [.propertyMismatch path value target]
  | none => return [.notAssignable value target]

/-- Findings against a concrete target that is not a union. `against` checks the literal against one
shape. -/
def literalFindings (ctx : Context) (path? : Option String) (literal : Ty)
    (against : Shape Ty → Limited (List Finding)) (target : Ty) : Limited (List Finding) :=
  match target with
  | .any => return []
  | .object shape => against shape
  | .record key value => against (.ofRecord key value)
  | .intersectionOf members =>
    match ctx.aliases.merge (.intersectionOf members) with
    | .shape shape => against shape
    | .any => return []
    | .notMergeable => ctx.fallback path? literal target
  | _ => ctx.fallback path? literal target

/-- Tries the members of a union that have a shape. The first one without findings ends the search;
otherwise the fewest findings count. -/
def unionFindings (ctx : Context) (check : Ty → Limited (List Finding)) :
    Option (List Finding) → List Ty → Limited (Option (List Finding))
  | best?, [] => return best?
  | best?, member :: members => do
    let resolved := ctx.aliases.concrete member
    if resolved.asShape?.isSome || resolved.isIntersection then
      let findings ← check resolved
      if findings.isEmpty then return some []
      ctx.unionFindings check (some (fewer best? findings)) members
    else
      ctx.unionFindings check best? members

/-- Findings against any target. -/
def targetFindings (ctx : Context) (path? : Option String) (literal : Ty)
    (against : Shape Ty → Limited (List Finding)) (target : Ty) : Limited (List Finding) := do
  match ctx.aliases.concrete target with
  | .unionOf members =>
    match ← ctx.unionFindings (ctx.literalFindings path? literal against) none members with
    | some findings => return findings
    | none => ctx.fallback path? literal (.unionOf members)
  | resolved => ctx.literalFindings path? literal against resolved

/-- Findings for a property value that is not a literal of its own. -/
def valueFindings (ctx : Context) (path : String) (value : Ty) (slot : Property Ty) :
    Limited (List Finding) := do
  if ← ctx.compatible value slot.declared then return []
  return [.propertyMismatch path value slot.ty]

mutual

/-- Findings for a literal against one shape: what it lacks first, then its own properties. -/
def shapeFindings (ctx : Context) (path? : Option String) :
    Ty → Shape Ty → Limited (List Finding)
  | .object ⟨properties, _, _, _⟩, target => do
    let found ← ctx.propertyFindings path? target properties
    return missing path? properties target.properties ++ found
  | _, _ => return []
termination_by structural literal => literal

/-- Findings for the properties of a literal, in the order of the literal. -/
def propertyFindings (ctx : Context) (path? : Option String) (target : Shape Ty) :
    List (Property Ty) → Limited (List Finding)
  | [] => return []
  | ⟨name, value, _⟩ :: rest => do
    let path := joinPath path? name
    let first ←
      match slot? target name with
      | some slot =>
        if value.isFreshLiteral then
          ctx.targetFindings (some path) value (ctx.shapeFindings (some path) value) slot.ty
        else ctx.valueFindings path value slot
      | none => pure <| if ctx.options.excessProperties then [.excessProperty path] else []
    return first ++ (← ctx.propertyFindings path? target rest)
termination_by structural properties => properties

end

/-- Checks the type of an object literal against the type that is expected in its place. The literal
counts as fresh whether or not it is marked so, and a literal inside of it where it is. -/
def validateLiteral (ctx : Context) (literal target : Ty) : Limited (List Finding) :=
  match literal with
  | .object _ => ctx.targetFindings none literal (ctx.shapeFindings none literal) target
  | _ =>
    match ctx.aliases.concrete target with
    | .any => return []
    | resolved => ctx.fallback none literal resolved

end Context

end StructuralTypes
