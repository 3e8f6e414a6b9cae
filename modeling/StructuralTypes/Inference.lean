import StructuralTypes.Diagnostic
import StructuralTypes.Inference.Observation
import StructuralTypes.Ty.Widen

set_option autoImplicit false

namespace StructuralTypes

inductive InferenceError where
  | conflict (param : String) (first second : Ty)
  | typeArgumentCount (expected got : Nat)
  | explicitArgument (expected got : Ty)
  | constraintViolation (param : String) (binding constraint : Ty)

namespace InferenceError

def finding : InferenceError → Finding
  | conflict param first second => .inferenceConflict param first second
  | typeArgumentCount expected got => .typeArgumentCount expected got
  | explicitArgument expected got => .explicitArgumentMismatch expected got
  | constraintViolation param _ constraint => .constraintViolation param constraint

def kind (e : InferenceError) : Kind := e.finding.code.kind

def message (e : InferenceError) : String := (e.finding.report ()).message

end InferenceError

structure InferenceResult where
  substitution : Substitution := {}
  errors : List InferenceError := []

namespace InferenceResult

def isOk (result : InferenceResult) : Bool := result.errors.isEmpty

def findings (result : InferenceResult) : List Finding := result.errors.map (·.finding)

end InferenceResult

/-- A type parameter while it is inferred. -/
structure InferenceParam where
  name : String
  binding : Option Ty := none

/-- The state of an inference. A parameter is known by its position. -/
structure Inference where
  params : List InferenceParam := []
  errors : List InferenceError := []

/-- What happens to a binding when its parameter is observed. -/
inductive Verdict where
  | keep
  | bind (ty : Ty)
  | conflict

namespace Inference

/-- Adds an unbound parameter; its position is the number of those before it. -/
def fresh (s : Inference) (name : String) : Inference :=
  { s with params := s.params ++ [{ name := name }] }

def names (s : Inference) : List String := s.params.map (·.name)

/-- The position of the first parameter with a name. -/
def find? (s : Inference) (name : String) : Option Nat := s.names.idxOf? name

def binding? (s : Inference) (param : Nat) : Option Ty :=
  (s.params[param]?).bind (·.binding)

/-- The types that a conflict message shows: widened, unless that makes them equal. -/
def conflictTypes (first second : Ty) : Ty × Ty :=
  if first.widenLiteral.same second.widenLiteral then (first, second)
  else (first.widenLiteral, second.widenLiteral)

/-- What an observation does to a binding. Two literals of one keyword type may be widened to it.
Otherwise the binding has to accept the observation, or it is a literal that the observation
accepts and gives way to it. -/
def judge (ctx : Context) (bound? : Option Ty) (observed : Ty) : Limited Verdict := do
  match bound? with
  | none => return .bind observed
  | some bound =>
    if bound.same observed then return .keep
    match bound, observed with
    | .literal a, .literal b =>
      return if a.base == b.base && ctx.options.widenLiterals then .bind (.primitive a.base)
        else .conflict
    | _, _ =>
      if ← ctx.compatible observed bound then return .keep
      if bound.isLiteral then
        if ← ctx.compatible bound observed then return .bind observed
      return .conflict

/-- Records an observation. A conflict is reported and leaves the binding as it is. -/
def observe (ctx : Context) (s : Inference) (o : Observation) : Limited Inference := do
  match s.params[o.param]? with
  | none => return s
  | some v =>
    match ← judge ctx v.binding o.ty with
    | .keep => return s
    | .bind ty => return { s with params := s.params.set o.param { v with binding := some ty } }
    | .conflict =>
      let (first, second) := conflictTypes (v.binding.getD .any) o.ty
      return { s with errors := s.errors ++ [.conflict v.name first second] }

def observeAll (ctx : Context) (s : Inference) : List Observation → Limited Inference
  | [] => return s
  | o :: os => do observeAll ctx (← s.observe ctx o) os

/-- Records what an argument says about a pattern. -/
def infer (ctx : Context) (s : Inference) (pattern arg : Ty) : Limited Inference := do
  s.observeAll ctx (← observations ctx s.names ⟨pattern, arg⟩)

/-- Records what the arguments say, one after the other. -/
def inferAll (ctx : Context) (s : Inference) : List (Ty × Ty) → Limited Inference
  | [] => return s
  | (pattern, arg) :: rest => do inferAll ctx (← s.infer ctx pattern arg) rest

/-- The bindings in the end. Of two parameters with one name the later counts. -/
def result (s : Inference) : InferenceResult where
  substitution := .ofList (s.params.map fun v => (v.name, v.binding.getD .any))
  errors := s.errors

end Inference

/-- The type parameters of a call, its patterns and arguments, and the type arguments that are
written out, if there are any. -/
structure InferenceRequest where
  typeParams : List (TypeParam Ty)
  patterns : List Ty
  args : List Ty
  explicit : Option (List Ty) := none

namespace InferenceRequest

/-- Type arguments that are written out are taken as they are; each argument still has to be
compatible with its pattern. -/
def applyExplicit (ctx : Context) (request : InferenceRequest) (explicit : List Ty) :
    Limited InferenceResult := do
  let expected := request.typeParams.length
  let substitution := Substitution.ofArgs request.typeParams explicit
  let countErrors :=
    if explicit.length = expected then [] else [.typeArgumentCount expected explicit.length]
  let pairs := (request.patterns.zip request.args).map fun (p, a) => (p.substitute substitution, a)
  let refused ← Limited.filter (fun (p, a) => return !(← ctx.compatible a p)) pairs
  return ⟨substitution, countErrors ++ refused.map fun (p, a) => .explicitArgument p a⟩

/-- Infers type arguments from the arguments of the call. -/
def applyInference (ctx : Context) (request : InferenceRequest) : Limited InferenceResult := do
  let start := request.typeParams.foldl (fun s param => s.fresh param.name) ({} : Inference)
  return (← start.inferAll ctx (request.patterns.zip request.args)).result

/-- The error of a binding that its parameter's constraint does not accept. -/
def constraintErrors (ctx : Context) (substitution : Substitution) :
    List (TypeParam Ty) → Limited (List InferenceError)
  | [] => return []
  | ⟨_, none⟩ :: params => constraintErrors ctx substitution params
  | ⟨name, some constraint⟩ :: params => do
    let binding := (substitution.get? name).getD .any
    let constraint := constraint.substitute substitution
    let satisfied ← ctx.compatible binding constraint
    let rest ← constraintErrors ctx substitution params
    return if satisfied then rest else .constraintViolation name binding constraint :: rest

def run (ctx : Context) (request : InferenceRequest) : Limited InferenceResult := do
  let result ←
    match request.explicit with
    | some explicit => request.applyExplicit ctx explicit
    | none => request.applyInference ctx
  let violations ← constraintErrors ctx result.substitution request.typeParams
  return { result with errors := result.errors ++ violations }

end InferenceRequest

end StructuralTypes
