import StructuralTypes.Proofs.Compatibility.Finite

/-!
The parameters of functions are identical, their results are compared both ways, and the function
type that leaves its parameters open goes with all of them. The rest of the relation has a direction,
but functions only ask about it in both.
-/

set_option autoImplicit false

namespace StructuralTypes

section Rules

variable {aliases : AliasMap} {holds : Ty → Ty → Prop} {value target : Ty}

/-- Parameters that are identical are so in the other order. -/
theorem identical_params_symm {source shape : Signature Ty} (wfSource : (Ty.function source).WellFormed)
    (wfShape : (Ty.function shape).WellFormed)
    (params : List.Forall₂ (fun a b => a.Same b ∨ holds a b ∧ holds b a) source.params shape.params) :
    List.Forall₂ (fun a b => a.Same b ∨ holds a b ∧ holds b a) shape.params source.params := by
  refine Ty.forall₂_symm_of_mem (fun a memberA b memberB => Or.imp (fun same => ?_) And.symm) params
  exact Ty.same_symm (wfSource.child (Ty.param_mem_children memberA))
    (wfShape.child (Ty.param_mem_children memberB)) same

/-- A rule about two functions asks the same queries when they change places. -/
theorem Justified.symm_of_functions (wfQuery : Query.WellFormed ⟨value, target⟩)
    (function : value.isFunction = true) (function' : target.isFunction = true)
    (justified : Justified aliases holds value target) : Justified aliases holds target value := by
  have inhabited : value.isNever = false := by
    cases value <;> first | rfl | cases function
  have shapeless : value.asShape? = none := by
    cases value <;> first | rfl | cases function
  cases justified with
  | anyTarget => cases function'
  | anyValue => cases function
  | neverValue => cases function
  | equal same => exact .equal (Ty.same_symm wfQuery.value wfQuery.target same)
  | byShape _ rule =>
      refine .byShape inhabited ?_
      cases rule with
      | anyFunction => exact .anyFunction
      | ofAnyFunction signature => exact .toAnyFunction signature
      | toAnyFunction signature => exact .ofAnyFunction signature
      | function params result back =>
          exact .function (identical_params_symm wfQuery.value wfQuery.target params) back result
      | sameClass valueShape => cases shapeless.symm.trans valueShape
      | shapes valueShape => cases shapeless.symm.trans valueShape
      | toUnion => cases function'
      | toIntersection => cases function'
      | _ => cases function

end Rules

section Derivations

variable {aliases : AliasMap} (wf : aliases.WellFormed) (nonrecursive : aliases.Nonrecursive)
  {f g : Ty}

include wf nonrecursive

theorem Derivable.symm_of_functions (wfQuery : Query.WellFormed ⟨f, g⟩)
    (function : (aliases.concrete f).isFunction = true)
    (function' : (aliases.concrete g).isFunction = true)
    (derived : Derivable aliases [] ⟨f, g⟩) : Derivable aliases [] ⟨g, f⟩ := by
  have justified := derived.justified_of_nonrecursive wf nonrecursive wfQuery
  exact .of_justified (justified.symm_of_functions (wfQuery.concrete wf) function function')

end Derivations

namespace Context

/-- Two names for functions that take a point and what to do with it. -/
def handlers : Context where
  aliases :=
    { definitions :=
        [⟨"Point", [], .object { properties := [⟨"x", .number, false⟩, ⟨"y", .number, false⟩] }⟩,
          ⟨"Consumer", [], .function ⟨[], [.ref "Point"], .void⟩⟩,
          ⟨"Handler", [], .function ⟨[], [.ref "Point", .ref "Consumer"], .unionOf [.string, .null]⟩⟩] }

end Context

end StructuralTypes
