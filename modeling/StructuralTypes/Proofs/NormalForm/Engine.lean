import StructuralTypes.Call
import StructuralTypes.Narrowing
import StructuralTypes.Proofs.NormalForm.Inference

set_option autoImplicit false

namespace StructuralTypes

namespace Ty

theorem union_filter_wellFormed {ty : Ty} (wf : ty.WellFormed) (keep : Ty → Bool) :
    (union (ty.unionMembers.filter keep)).WellFormed := by
  apply union_wellFormed
  intro m member
  exact wf.unionMembers (List.mem_of_mem_filter member)

theorem union_filterMap_wellFormed {ty : Ty} (wf : ty.WellFormed) {part? : Ty → Option Ty}
    (wfPart : ∀ m part : Ty, m.WellFormed → part? m = some part → part.WellFormed) :
    (union (ty.unionMembers.filterMap part?)).WellFormed := by
  apply union_wellFormed
  intro part member
  obtain ⟨m, listed, found⟩ := List.mem_filterMap.mp member
  exact wfPart m part (wf.unionMembers listed) found

theorem removeNullish_wellFormed {ty : Ty} (wf : ty.WellFormed) : ty.removeNullish.WellFormed := by
  unfold removeNullish
  split
  case h_1 members => exact union_filter_wellFormed wf _
  case h_2 =>
    split
    · exact .primitive .never
    · exact wf

theorem ofTypeof_wellFormed (name : String) : (ofTypeof name).WellFormed := by
  unfold ofTypeof
  split
  case h_5 => exact .anyFunction
  all_goals exact .primitive _

theorem withoutLiteral?_wellFormed {literal m part : Ty} (wf : m.WellFormed)
    (found : withoutLiteral? literal m = some part) : part.WellFormed := by
  unfold withoutLiteral? at found
  split at found
  · cases found
  · split at found
    · cases found
      exact .literal _
    · cases found
      exact wf

theorem truthyPart?_wellFormed {m part : Ty} (wf : m.WellFormed)
    (found : truthyPart? m = some part) : part.WellFormed := by
  unfold truthyPart? at found
  split at found
  case h_1 =>
    cases found
    exact .literal _
  case h_4 =>
    cases found
    exact wf
  all_goals
    split at found
    · cases found
    · cases found
      exact wf

theorem falsyPart?_wellFormed {m part : Ty} (wf : m.WellFormed)
    (found : falsyPart? m = some part) : part.WellFormed := by
  unfold falsyPart? at found
  split at found
  case h_4 =>
    split at found
    · cases found
      exact wf
    · cases found
  case h_5 =>
    split at found
    · cases found
      exact wf
    · cases found
  case h_6 => cases found
  all_goals
    cases found
    exact .literal _

end Ty

namespace Guard

/-- The types that a condition mentions are well formed. -/
def WellFormed : Guard → Prop
  | equals literal => literal.WellFormed
  | is ty => ty.WellFormed
  | typeofIs _ | nullish | truthy => True

end Guard

namespace AliasMap

section Narrowing

variable {aliases : AliasMap} {source target : Ty}

theorem filterMembers_wellFormed (wf : aliases.WellFormed) {ty : Ty} (wfTy : ty.WellFormed)
    (test : Ty → Limited Bool) : (aliases.filterMembers test ty).value.WellFormed := by
  rw [filterMembers, Limited.value_bind, Limited.value_filter]
  exact Ty.union_filter_wellFormed (concrete_wellFormed wf wfTy) _

theorem narrowTo_wellFormed (wf : aliases.WellFormed) (wfSource : source.WellFormed)
    (wfTarget : target.WellFormed) : (aliases.narrowTo source target).value.WellFormed := by
  rw [narrowTo]
  split
  · exact wfTarget
  · rw [Limited.value_bind, Limited.value_filter]
    exact Ty.union_filter_wellFormed (concrete_wellFormed wf wfSource) _

theorem narrowExcluding_wellFormed (wf : aliases.WellFormed) (wfSource : source.WellFormed) :
    (aliases.narrowExcluding source target).value.WellFormed := by
  rw [narrowExcluding]
  split
  · exact wfSource
  · rw [Limited.value_bind, Limited.value_filter]
    exact Ty.union_filter_wellFormed (concrete_wellFormed wf wfSource) _

theorem narrowTypeof_wellFormed (wf : aliases.WellFormed) (wfSource : source.WellFormed)
    (name : String) (sense : Bool) :
    (aliases.narrowTypeof source name sense).value.WellFormed := by
  rw [narrowTypeof]
  split
  · cases sense
    · exact .primitive .any
    · exact Ty.ofTypeof_wellFormed name
  · exact filterMembers_wellFormed wf (concrete_wellFormed wf wfSource) _

theorem literalParts_wellFormed {literal : Ty} (wfLiteral : literal.WellFormed) {members : List Ty}
    (wfMembers : ∀ m ∈ members, m.WellFormed) :
    ∀ part ∈ (aliases.literalParts literal members).value, part.WellFormed := by
  induction members with
  | nil =>
      intro part member
      cases member
  | cons m ms ih =>
      intro part member
      have found : part ∈ (aliases.literalPart literal m).value ++
          (aliases.literalParts literal ms).value := member
      rcases List.mem_append.mp found with first | later
      · rw [literalPart] at first
        split at first
        · cases List.mem_singleton.mp first
          exact wfMembers m (.head _)
        · rw [Limited.value_bind] at first
          split at first
          · cases List.mem_singleton.mp first
            exact wfLiteral
          · cases first
      · exact ih (fun other listed => wfMembers other (.tail _ listed)) part later

theorem narrowToLiteral_wellFormed (wf : aliases.WellFormed) (wfSource : source.WellFormed)
    {literal : Ty} (wfLiteral : literal.WellFormed) :
    (aliases.narrowToLiteral source literal).value.WellFormed := by
  rw [narrowToLiteral]
  split
  · exact wfLiteral
  · rw [Limited.value_bind]
    apply Ty.union_wellFormed
    apply literalParts_wellFormed wfLiteral
    intro m member
    exact (concrete_wellFormed wf wfSource).unionMembers member

theorem narrowByPredicate_wellFormed (wf : aliases.WellFormed) (wfSource : source.WellFormed)
    {guard : Ty} (wfGuard : guard.WellFormed) :
    (aliases.narrowByPredicate source guard).value.WellFormed := by
  have narrowed := narrowTo_wellFormed wf wfSource wfGuard
  rw [narrowByPredicate, Limited.value_bind]
  split
  · rw [Limited.value_bind]
    split
    · exact wfGuard
    · exact narrowed
  · exact narrowed

theorem narrowAgainstPredicate_wellFormed (wf : aliases.WellFormed) (wfSource : source.WellFormed)
    (guard : Ty) : (aliases.narrowAgainstPredicate source guard).value.WellFormed := by
  have wfResolved := concrete_wellFormed wf wfSource
  rw [narrowAgainstPredicate]
  split
  · exact wfResolved
  · exact filterMembers_wellFormed wf wfResolved _

theorem narrow_wellFormed (wf : aliases.WellFormed) (wfSource : source.WellFormed) {guard : Guard}
    (wfGuard : guard.WellFormed) (sense : Bool) :
    (aliases.narrow source guard sense).value.WellFormed := by
  have wfResolved := concrete_wellFormed wf wfSource
  cases guard with
  | typeofIs name => cases sense <;> exact narrowTypeof_wellFormed wf wfSource name _
  | equals literal =>
      cases sense with
      | true => exact narrowToLiteral_wellFormed wf wfSource wfGuard
      | false =>
          show (aliases.narrowExcludingLiteral source literal).WellFormed
          rw [narrowExcludingLiteral]
          split
          · exact wfResolved
          · exact Ty.union_filterMap_wellFormed wfResolved
              fun _ _ => Ty.withoutLiteral?_wellFormed
  | nullish =>
      cases sense with
      | true =>
          show (aliases.narrowToNullish source).WellFormed
          rw [narrowToNullish]
          split
          · exact Ty.union_pair_wellFormed (.primitive .null) (.primitive .undefined)
          · exact Ty.union_filter_wellFormed wfResolved _
      | false => exact Ty.removeNullish_wellFormed wfResolved
  | truthy =>
      cases sense with
      | true =>
          exact Ty.union_filterMap_wellFormed wfResolved fun _ _ => Ty.truthyPart?_wellFormed
      | false =>
          show (aliases.narrowFalsy source).WellFormed
          rw [narrowFalsy]
          split
          · exact wfResolved
          · exact Ty.union_filterMap_wellFormed wfResolved fun _ _ => Ty.falsyPart?_wellFormed
  | is ty =>
      cases sense with
      | true => exact narrowByPredicate_wellFormed wf wfSource wfGuard
      | false => exact narrowAgainstPredicate_wellFormed wf wfSource ty

end Narrowing

end AliasMap

namespace Context

section Calls

variable {ctx : Context}

theorem callable?_wellFormed (wf : ctx.aliases.WellFormed) {callee : Ty}
    (wfCallee : callee.WellFormed) {signature : Signature Ty}
    (found : ctx.callable? callee = some (.function signature)) :
    (Ty.function signature).WellFormed := by
  have plain {ty : Ty} (wfTy : ty.WellFormed) (direct : ty.callable? = some (.function signature)) :
      (Ty.function signature).WellFormed := by
    cases ty with
    | function own =>
        cases direct
        exact wfTy
    | _ => cases direct
  have wfResolved := AliasMap.concrete_wellFormed wf wfCallee
  unfold callable? at found
  split at found
  case h_1 members resolved =>
    rw [resolved] at wfResolved
    obtain ⟨m, inside, direct⟩ := List.exists_of_findSome?_eq_some found
    exact plain (AliasMap.concrete_wellFormed wf (wfResolved.intersectionMember inside)) direct
  case h_2 => exact plain wfResolved found

/-- The result is the declared one for the inferred type arguments, whatever was found wrong. -/
theorem callSignature_result (signature : Signature Ty) (args : List Ty)
    (explicit : Option (List Ty)) :
    (ctx.callSignature signature args explicit).value.result =
      signature.result.substitute (InferenceRequest.run ctx
        ⟨signature.typeParams, signature.params, args, explicit⟩).value.substitution := by
  rw [callSignature, Limited.value_bind]
  dsimp only
  by_cases ok : (InferenceRequest.run ctx
      ⟨signature.typeParams, signature.params, args, explicit⟩).value.isOk = true
  · rw [if_pos ok]
    rfl
  · rw [if_neg ok]
    rfl

theorem call_wellFormed (wf : ctx.aliases.WellFormed) {callee : Ty} (wfCallee : callee.WellFormed)
    {args : List Ty} (wfArgs : ∀ arg ∈ args, arg.WellFormed) {explicit : Option (List Ty)}
    (wfExplicit : ∀ given, explicit = some given → ∀ arg ∈ given, arg.WellFormed) :
    (ctx.call callee args explicit).value.result.WellFormed := by
  unfold call
  split
  case h_1 => exact .primitive .any
  case h_2 => exact .primitive .any
  case h_3 signature found =>
    have wfSignature := callable?_wellFormed wf wfCallee found
    have wfResult := wfSignature.child (Ty.result_mem_children signature)
    rw [callSignature_result]
    exact Ty.substitute_wellFormed (InferenceRequest.run_wellFormed wf wfArgs wfExplicit) wfResult

end Calls

/-- Every operation that produces types produces well-formed ones from well-formed ones. -/
structure KeepsNormalForm (ctx : Context) : Prop where
  union : ∀ tys : List Ty, (∀ ty ∈ tys, ty.WellFormed) → (Ty.union tys).WellFormed
  intersection : ∀ tys : List Ty, (∀ ty ∈ tys, ty.WellFormed) → (Ty.intersection tys).WellFormed
  widenLiteral : ∀ ty : Ty, ty.WellFormed → ty.widenLiteral.WellFormed
  widenFreshness : ∀ ty : Ty, ty.WellFormed → ty.widenFreshness.WellFormed
  removeNullish : ∀ ty : Ty, ty.WellFormed → ty.removeNullish.WellFormed
  substitute : ∀ (ty : Ty) (σ : Substitution), ty.WellFormed → σ.WellFormed →
    (ty.substitute σ).WellFormed
  instantiate : ∀ (name : String) (args : List Ty), (∀ arg ∈ args, arg.WellFormed) →
    (ctx.aliases.instantiate name args).WellFormed
  resolve : ∀ ty : Ty, ty.WellFormed → (ctx.aliases.resolve ty).WellFormed
  keyofSubject : ∀ ty : Ty, ty.WellFormed → (ctx.aliases.keyofSubject ty).WellFormed
  concrete : ∀ ty : Ty, ty.WellFormed → (ctx.aliases.concrete ty).WellFormed
  merge : ∀ (ty : Ty) (shape : Shape Ty), ty.WellFormed → ctx.aliases.merge ty = .shape shape →
    (Ty.object shape).WellFormed
  infer : ∀ request : InferenceRequest, (∀ arg ∈ request.args, arg.WellFormed) →
    (∀ explicit, request.explicit = some explicit → ∀ arg ∈ explicit, arg.WellFormed) →
    (request.run ctx).value.substitution.WellFormed
  call : ∀ (callee : Ty) (args : List Ty) (explicit : Option (List Ty)), callee.WellFormed →
    (∀ arg ∈ args, arg.WellFormed) →
    (∀ given, explicit = some given → ∀ arg ∈ given, arg.WellFormed) →
    (ctx.call callee args explicit).value.result.WellFormed
  narrowTo : ∀ source target : Ty, source.WellFormed → target.WellFormed →
    (ctx.aliases.narrowTo source target).value.WellFormed
  narrowExcluding : ∀ source target : Ty, source.WellFormed → target.WellFormed →
    (ctx.aliases.narrowExcluding source target).value.WellFormed
  narrowTypeof : ∀ (source : Ty) (name : String) (sense : Bool), source.WellFormed →
    (ctx.aliases.narrowTypeof source name sense).value.WellFormed
  narrow : ∀ (source : Ty) (guard : Guard) (sense : Bool), source.WellFormed → guard.WellFormed →
    (ctx.aliases.narrow source guard sense).value.WellFormed

/-- The engine never leaves the normal form when the bodies of all definitions are in it. -/
theorem keepsNormalForm (ctx : Context) (wf : ctx.aliases.WellFormed) : ctx.KeepsNormalForm where
  union _ := Ty.union_wellFormed
  intersection _ := Ty.intersection_wellFormed
  widenLiteral _ := Ty.widenLiteral_wellFormed
  widenFreshness _ := Ty.widenFreshness_wellFormed
  removeNullish _ := Ty.removeNullish_wellFormed
  substitute _ _ wfTy wfσ := Ty.substitute_wellFormed wfσ wfTy
  instantiate name _ := AliasMap.instantiate_wellFormed wf name
  resolve _ := AliasMap.resolve_wellFormed wf
  keyofSubject _ := AliasMap.keyofSubject_wellFormed wf
  concrete _ := AliasMap.concrete_wellFormed wf
  merge _ _ wfTy := AliasMap.merge_wellFormed wf wfTy
  infer _ := InferenceRequest.run_wellFormed wf
  call _ _ _ wfCallee wfArgs := call_wellFormed wf wfCallee wfArgs
  narrowTo _ _ := AliasMap.narrowTo_wellFormed wf
  narrowExcluding _ _ wfSource _ := AliasMap.narrowExcluding_wellFormed wf wfSource
  narrowTypeof _ name sense wfSource := AliasMap.narrowTypeof_wellFormed wf wfSource name sense
  narrow _ _ sense wfSource wfGuard := AliasMap.narrow_wellFormed wf wfSource wfGuard sense

/-- A recursive name, and one whose argument may be a union with a member of its own. -/
def trees : Context where
  aliases :=
    { definitions :=
        [⟨"Tree", [], .object { properties :=
            [⟨"label", .unionOf [.literal (.text "leaf"), .literal (.text "node")], false⟩,
              ⟨"parent", .unionOf [.ref "Tree", .null], true⟩] }⟩,
          ⟨"Several", [⟨"T", none⟩], .unionOf [.ref "T", .array (.ref "T"), .null]⟩] }

theorem trees_keepsNormalForm :
    trees.aliases.WellFormed ∧ trees.KeepsNormalForm ∧
      (Ty.unionOf [.ref "Tree", .null]).WellFormed ∧
      (trees.aliases.instantiate "Several" [.unionOf [.ref "Tree", .null]]).WellFormed := by
  have wf : trees.aliases.WellFormed := by decide +kernel
  have wfArg : (Ty.unionOf [.ref "Tree", .null]).WellFormed := by decide +kernel
  have kept := keepsNormalForm trees wf
  refine ⟨wf, kept, wfArg, kept.instantiate "Several" _ ?_⟩
  intro arg given
  cases List.mem_singleton.mp given
  exact wfArg

end Context

end StructuralTypes
