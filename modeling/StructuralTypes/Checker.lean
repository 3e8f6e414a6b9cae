import StructuralTypes.ObjectLiteral

set_option autoImplicit false

namespace StructuralTypes

/-- A computation that asks a checker. Between two questions a checker keeps the walk of its last
comparison. -/
abbrev CheckM := StateT (Walk Query) Limited

namespace CheckM

/-- Compares two types on the walk as it is. -/
def step (ctx : Context) (value target : Ty) : CheckM Bool := fun walk =>
  let (answer, walk) := ctx.check ctx.levels ⟨value, target⟩ walk
  ⟨(answer, walk), walk.exceeded⟩

/-- Compares two types on a new walk, unless the checker is inside of a comparison. -/
def isCompatible (ctx : Context) (value target : Ty) : CheckM Bool := do
  if (← get).depth = 0 then modify Walk.reset
  step ctx value target

/-- Equal types, and types that are compatible in both directions. -/
def isIdentical (ctx : Context) (a b : Ty) : CheckM Bool := do
  if a.same b then return true
  if ← step ctx a b then step ctx b a else return false

/-- Whether the last comparison gave up at a limit. -/
def limitExceeded : CheckM Bool := return (← get).exceeded

/-- Findings for an assignment. An object literal is checked as one; any other value only has to be
compatible. -/
def checkAssignment (ctx : Context) (value target : Ty) : CheckM (List Finding) := do
  if value.isFreshLiteral then
    ctx.validateLiteral value target
  else if ← isCompatible ctx value target then
    return []
  else
    return [.notAssignable value target]

/-- Asks a new checker. -/
def ask {α : Type} (ctx : Context) (question : CheckM α) : Limited α :=
  question.run' ctx.walk

end CheckM

end StructuralTypes
