import StructuralTypes.Compatibility

set_option autoImplicit false

namespace StructuralTypes

/-- The parameter with the given index was seen as a type. -/
structure Observation where
  param : Nat
  ty : Ty

namespace Inference

/-- A pattern and the argument that stands in its place. -/
structure Match where
  pattern : Ty
  arg : Ty

instance : BEq Match where
  beq a b := a.pattern.same b.pattern && a.arg.same b.arg

/-- A pattern property meets the argument's property of its name, or else its index signature. -/
def propertyMatch? (arg : Shape Ty) (slot : Property Ty) : Option Match :=
  match arg.property? slot.name with
  | some property => some ⟨slot.ty, property.ty⟩
  | none => arg.index.map (fun index => ⟨slot.ty, index.value⟩)

/-- A pattern index signature meets the argument's, or else the argument's properties that the
pattern does not name. -/
def indexMatches (pattern arg : Shape Ty) (index : IndexSignature Ty) : List Match :=
  match arg.index with
  | some own => [⟨index.key, own.key⟩, ⟨index.value, own.value⟩]
  | none =>
    (arg.properties.filter fun p => (pattern.property? p.name).isNone).map
      fun p => ⟨index.value, p.ty⟩

def shapeMatches (pattern arg : Shape Ty) : List Match :=
  pattern.properties.filterMap (propertyMatch? arg) ++
    pattern.index.toList.flatMap (indexMatches pattern arg)

def signatureMatches (pattern arg : Signature Ty) : List Match :=
  (pattern.params.zip arg.params).map (fun (p, a) => ⟨p, a⟩) ++ [⟨pattern.result, arg.result⟩]

/-- A union pattern with a single open member, one that mentions a type parameter: that member
meets what is left of the argument when the members that the fixed ones accept are taken away. -/
def unionMatches (ctx : Context) (params : List String) (members : List Ty) (arg : Ty) :
    Limited (List Match) := do
  match members.filter (Ty.mentions params) with
  | [openMember] =>
    let fixed := members.filter (fun m => !m.mentions params)
    let remainder ← Limited.filter
      (fun a => return !(← Limited.any (fun f => ctx.compatible a f) fixed)) arg.unionMembers
    return if remainder.isEmpty then [] else [⟨openMember, .union remainder⟩]
  | _ => return []

/-- The parts of a pattern and of a resolved argument that meet each other. -/
def parts (ctx : Context) (params : List String) (pattern arg : Ty) : Limited (List Match) :=
  match pattern, arg with
  | .array p, .array a => return [⟨p, a⟩]
  | .array p, .tuple as => return as.map (⟨p, ·⟩)
  | .tuple ps, .tuple as => return (ps.zip as).map (fun (p, a) => ⟨p, a⟩)
  | .function p, .function a => return signatureMatches p a
  | .unionOf members, _ => unionMatches ctx params members arg
  | .intersectionOf members, _ => return members.map (⟨·, arg⟩)
  | .predicate _ p, .predicate _ a => return [⟨p, a⟩]
  | _, _ =>
    match pattern.asShape?, arg.asShape? with
    | some p, some a => return shapeMatches p a
    | _, _ => return []

/-- A walk over a pattern. Its state holds the names being expanded, each with its argument; it has
no result when its steps run out. -/
abbrev MatchM := StateT (List Match) (OptionT Limited)

/-- The observations of several matches, one after the other. -/
def observeEach (observe : Match → MatchM (List Observation)) :
    List Match → MatchM (List Observation)
  | [] => return []
  | m :: ms => do
    let first ← observe m
    let rest ← observeEach observe ms
    return first ++ rest

/-- The observations of a match within a number of nested steps. A name that is not a type parameter
stands for its definition; met again with the same argument inside of itself, it says nothing new. -/
def observeWithin (ctx : Context) (params : List String) : Nat → Match → MatchM (List Observation)
  | 0, _ => failure
  | steps + 1, m =>
    match m.pattern with
    | .ref name =>
      match params.idxOf? name with
      | some i => return [⟨i, m.arg⟩]
      | none => do
        let resolved := ctx.aliases.resolve m.pattern
        if resolved.same m.pattern then return []
        if (← get).contains m then return []
        modify (m :: ·)
        let found ← observeWithin ctx params steps ⟨resolved, m.arg⟩
        modify (·.erase m)
        return found
    | pattern => do
      let ms ← parts ctx params pattern (ctx.aliases.resolve m.arg)
      observeEach (observeWithin ctx params steps) ms

/-- Names are expanded inside of each other at most once for each argument, and an argument is a
node of the given types or a part of a union among them; in between, the pattern gets smaller. So
the walk ends within this many nested steps. -/
def observeSteps (ctx : Context) (m : Match) : Nat :=
  let nodes := m.pattern.size + m.arg.size + ctx.aliases.bodySize
  (ctx.aliases.size * Nat.pow 2 (2 * nodes + 2) + 1) * (nodes + 2)

/-- What an argument says about the type parameters of a pattern. -/
def observations (ctx : Context) (params : List String) (m : Match) :
    Limited (List Observation) := do
  match ← ((observeWithin ctx params (observeSteps ctx m) m).run []).run with
  | some (found, _) => return found
  | none => return []

end Inference

end StructuralTypes
