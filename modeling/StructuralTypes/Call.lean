import StructuralTypes.Checker
import StructuralTypes.Inference

set_option autoImplicit false

namespace StructuralTypes

/-- The outcome of a call. -/
structure CallResult where
  result : Ty := .any
  substitution : Substitution := {}
  findings : List Finding := []

namespace CallResult

def isOk (call : CallResult) : Bool := call.findings.isEmpty

end CallResult

/-- What can be called. -/
inductive Callable where
  | anyFunction
  | function (signature : Signature Ty)

namespace Ty

def callable? : Ty → Option Callable
  | anyFunction => some .anyFunction
  | function signature => some (.function signature)
  | _ => none

end Ty

namespace Context

/-- A function, or the first function among the members of an intersection. -/
def callable? (ctx : Context) (callee : Ty) : Option Callable :=
  match ctx.aliases.concrete callee with
  | .intersectionOf members => members.findSome? (fun m => (ctx.aliases.concrete m).callable?)
  | resolved => resolved.callable?

/-- Findings for an argument against what its parameter expects. -/
def argumentFindings (ctx : Context) (arg expected : Ty) : Limited (List Finding) := do
  if arg.isFreshLiteral then ctx.validateLiteral arg expected
  else if ← ctx.compatible arg expected then return []
  else return [.argumentNotAssignable arg expected]

/-- Findings for all arguments, in their order. -/
def argumentsFindings (ctx : Context) : List (Ty × Ty) → Limited (List Finding)
  | [] => return []
  | (arg, expected) :: rest => do
    let first ← ctx.argumentFindings arg expected
    return first ++ (← ctx.argumentsFindings rest)

/-- Arguments are checked only when the type arguments are known. -/
def callSignature (ctx : Context) (signature : Signature Ty) (args : List Ty)
    (explicit : Option (List Ty)) : Limited CallResult := do
  let expected := signature.params.length
  let countFindings :=
    if expected = args.length then [] else [.argumentCount expected args.length]
  let inference ← InferenceRequest.run ctx ⟨signature.typeParams, signature.params, args, explicit⟩
  let σ := inference.substitution
  let findings ←
    if inference.isOk then
      ctx.argumentsFindings
        ((signature.params.zip args).map fun (param, arg) => (arg, param.substitute σ))
    else pure inference.findings
  return ⟨signature.result.substitute σ, σ, countFindings ++ findings⟩

/-- Resolves a call. The result of a callee that leaves its parameters open, or that cannot be
called, is `any`. -/
def call (ctx : Context) (callee : Ty) (args : List Ty) (explicit : Option (List Ty)) :
    Limited CallResult :=
  match ctx.callable? callee with
  | none => return { findings := [.notCallable callee] }
  | some .anyFunction => return {}
  | some (.function signature) => ctx.callSignature signature args explicit

end Context

end StructuralTypes
