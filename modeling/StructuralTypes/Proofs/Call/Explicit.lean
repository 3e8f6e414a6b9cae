import StructuralTypes.Call
import StructuralTypes.Proofs.Inference.Observations
import StructuralTypes.Proofs.Inference.Patterns

set_option autoImplicit false

namespace StructuralTypes

namespace Substitution

variable {σ : Substitution} {bindings : List (String × Ty)}

theorem get?_foldl_of_absent {name : String} (absent : name ∉ bindings.map (·.1)) :
    (bindings.foldl (fun σ binding => σ.insert binding.1 binding.2) σ).get? name = σ.get? name := by
  induction bindings generalizing σ with
  | nil => rfl
  | cons first rest ih =>
      rw [List.map_cons, List.mem_cons, not_or] at absent
      rw [List.foldl_cons, ih absent.2, get?_insert, if_neg absent.1]

/-- Of bindings with distinct names each one counts. -/
theorem get?_foldl_of_mem (distinct : (bindings.map (·.1)).Nodup) {binding : String × Ty}
    (member : binding ∈ bindings) :
    (bindings.foldl (fun σ binding => σ.insert binding.1 binding.2) σ).get? binding.1 =
      some binding.2 := by
  induction bindings generalizing σ with
  | nil => cases member
  | cons first rest ih =>
      obtain ⟨absent, distinctRest⟩ := List.nodup_cons.mp distinct
      rw [List.foldl_cons]
      cases member with
      | head => rw [get?_foldl_of_absent absent, get?_insert, if_pos rfl]
      | tail _ later => exact ih distinctRest later

/-- What a substitution has for type parameters, in their order. -/
def argsFor (σ : Substitution) (params : List (TypeParam Ty)) : List Ty :=
  params.filterMap fun param => σ.get? param.name

variable {params : List (TypeParam Ty)} (names : bindings.map (·.1) = params.map (·.name))

include names

theorem argsFor_ofList (distinct : (params.map (·.name)).Nodup) :
    (ofList bindings).argsFor params = bindings.map (·.2) := by
  rw [← names] at distinct
  calc (ofList bindings).argsFor params
      = (params.map (·.name)).filterMap (ofList bindings).get? := by rw [List.filterMap_map]; rfl
    _ = bindings.filterMap fun b => (ofList bindings).get? b.1 := by
        rw [← names, List.filterMap_map]
        rfl
    _ = bindings.filterMap fun b => some b.2 :=
        List.filterMap_congr fun b member => get?_foldl_of_mem distinct member
    _ = bindings.map (·.2) := congrFun List.filterMap_eq_map bindings

theorem pair_args : ofArgs.pair params (bindings.map (·.2)) = bindings := by
  induction params generalizing bindings with
  | nil =>
      rw [List.map_eq_nil_iff.mp names]
      rfl
  | cons param params ih =>
      obtain ⟨⟨name, ty⟩, rest, rfl, rfl, others⟩ := List.map_eq_cons_iff.mp names
      rw [List.map_cons, ofArgs.pair, ih others]

/-- Bindings that are written out are the same bindings again. -/
theorem ofArgs_argsFor (distinct : (params.map (·.name)).Nodup) :
    ofArgs params ((ofList bindings).argsFor params) = ofList bindings := by
  rw [argsFor_ofList names distinct, ofArgs, pair_args names]

theorem length_argsFor (distinct : (params.map (·.name)).Nodup) :
    ((ofList bindings).argsFor params).length = params.length := by
  rw [argsFor_ofList names distinct]
  simpa using congrArg List.length names

end Substitution

namespace Inference

variable {ctx : Context}

/-- Whatever the arguments say, the parameters are the same. -/
theorem names_inferAll (s : Inference) (pairs : List (Ty × Ty)) :
    (s.inferAll ctx pairs).value.names = s.names := by
  induction pairs generalizing s with
  | nil => rfl
  | cons pair pairs ih =>
      rw [inferAll, Limited.value_bind, ih, infer, Limited.value_bind, names_observeAll]

end Inference

namespace InferenceRequest

variable {ctx : Context} {typeParams : List (TypeParam Ty)} {patterns args : List Ty}

/-- Inference binds the type parameters, in their order. -/
theorem exists_bindings (ctx : Context) (request : InferenceRequest) :
    ∃ bindings, (request.applyInference ctx).value.substitution = .ofList bindings ∧
      bindings.map (·.1) = request.typeParams.map (·.name) := by
  refine ⟨_, rfl, ?_⟩
  rw [List.map_map]
  show Inference.names _ = _
  rw [Inference.names_inferAll, Inference.foldl_fresh, Inference.names]
  simp

/-- Nothing is asked of type arguments that are written out but their number, and that the arguments
are accepted under them. -/
theorem applyExplicit_of_accepted {request : InferenceRequest} {explicit : List Ty}
    {σ : Substitution} (written : .ofArgs request.typeParams explicit = σ)
    (count : explicit.length = request.typeParams.length)
    (accepted : ∀ pair ∈ request.patterns.zip request.args,
      (ctx.compatible pair.2 (pair.1.substitute σ)).value = true) :
    (request.applyExplicit ctx explicit).value = ⟨σ, []⟩ := by
  subst written
  simp only [applyExplicit, Limited.value_bind, Limited.value_pure, Limited.value_filter,
    if_pos count]
  rw [List.filter_eq_nil_iff.mpr]
  · rfl
  · intro pair member
    obtain ⟨listed, own, rfl⟩ := List.mem_map.mp member
    simp [accepted listed own]

theorem applyInference_of_clean
    (clean : (run ctx ⟨typeParams, patterns, args, none⟩).value.errors = []) :
    (applyInference ctx ⟨typeParams, patterns, args, none⟩).value =
      ⟨(run ctx ⟨typeParams, patterns, args, none⟩).value.substitution, []⟩ := by
  rw [← (List.append_eq_nil_iff.mp clean).1]
  rfl

/-- Bindings that were inferred may be written out, if the arguments are accepted under them. -/
theorem run_argsFor (distinct : (typeParams.map (·.name)).Nodup) {σ : Substitution}
    (inferred : (applyInference ctx ⟨typeParams, patterns, args, none⟩).value = ⟨σ, []⟩)
    (accepted : ∀ pair ∈ patterns.zip args,
      (ctx.compatible pair.2 (pair.1.substitute σ)).value = true) :
    (run ctx ⟨typeParams, patterns, args, some (σ.argsFor typeParams)⟩).value =
      (run ctx ⟨typeParams, patterns, args, none⟩).value := by
  obtain ⟨bindings, own, names⟩ := exists_bindings ctx ⟨typeParams, patterns, args, none⟩
  rw [inferred] at own
  obtain rfl : σ = .ofList bindings := own
  have explicit : (applyExplicit ctx
      ⟨typeParams, patterns, args, some ((Substitution.ofList bindings).argsFor typeParams)⟩
      ((Substitution.ofList bindings).argsFor typeParams)).value = ⟨.ofList bindings, []⟩ :=
    applyExplicit_of_accepted (Substitution.ofArgs_argsFor names distinct)
      (Substitution.length_argsFor names distinct) accepted
  simp only [run, Limited.value_bind, explicit, inferred]

end InferenceRequest

namespace Context

variable {ctx : Context} {signature : Signature Ty} {args : List Ty}

/-- Arguments, each with what its parameter expects. -/
def offered (σ : Substitution) (pairs : List (Ty × Ty)) : List (Ty × Ty) :=
  pairs.map fun (param, arg) => (arg, param.substitute σ)

theorem compatible_of_offered {σ : Substitution} {pairs : List (Ty × Ty)}
    (plain : ∀ pair ∈ pairs, pair.2.isFreshLiteral = false)
    (clean : (ctx.argumentsFindings (offered σ pairs)).value = []) :
    ∀ pair ∈ pairs, (ctx.compatible pair.2 (pair.1.substitute σ)).value = true := by
  induction pairs with
  | nil => exact nofun
  | cons pair pairs ih =>
      obtain ⟨plainHere, plainRest⟩ := List.forall_mem_cons.mp plain
      obtain ⟨here, rest⟩ := List.append_eq_nil_iff.mp clean
      refine List.forall_mem_cons.mpr ⟨?_, ih plainRest rest⟩
      rw [argumentFindings, if_neg (ne_true_of_eq_false plainHere), Limited.value_bind] at here
      by_contra refused
      rw [if_neg refused] at here
      cases here

/-- A call of a signature, given its type arguments. -/
def callWith (ctx : Context) (signature : Signature Ty) (args : List Ty)
    (inference : InferenceResult) : CallResult where
  result := signature.result.substitute inference.substitution
  substitution := inference.substitution
  findings :=
    (if signature.params.length = args.length then []
      else [.argumentCount signature.params.length args.length]) ++
    if inference.isOk then
      (ctx.argumentsFindings (offered inference.substitution (signature.params.zip args))).value
    else inference.findings

theorem value_callSignature (ctx : Context) (signature : Signature Ty) (args : List Ty)
    (explicit : Option (List Ty)) :
    (ctx.callSignature signature args explicit).value = ctx.callWith signature args
      (InferenceRequest.run ctx ⟨signature.typeParams, signature.params, args, explicit⟩).value := by
  rw [callSignature, callWith]
  simp only [Limited.value_bind]
  split <;> rfl

theorem callWith_clean {inference : InferenceResult}
    (clean : (ctx.callWith signature args inference).findings = []) :
    inference.errors = [] ∧ (ctx.argumentsFindings
      (offered inference.substitution (signature.params.zip args))).value = [] := by
  have findings := (List.append_eq_nil_iff.mp clean).2
  by_cases ok : inference.isOk = true
  · rw [if_pos ok] at findings
    exact ⟨List.isEmpty_iff.mp ok, findings⟩
  · rw [if_neg ok] at findings
    exact absurd (List.isEmpty_iff.mpr (List.map_eq_nil_iff.mp findings)) ok

theorem callSignature_argsFor (distinct : (signature.typeParams.map (·.name)).Nodup)
    (plain : ∀ arg ∈ args, arg.isFreshLiteral = false)
    (clean : (ctx.callSignature signature args none).value.findings = []) :
    (ctx.callSignature signature args (some
      ((ctx.callSignature signature args none).value.substitution.argsFor
        signature.typeParams))).value = (ctx.callSignature signature args none).value := by
  -- Both calls do the same with what inference gives them, so only that has to be compared.
  rw [value_callSignature] at clean
  rw [value_callSignature, value_callSignature]
  obtain ⟨noErrors, noFindings⟩ := callWith_clean clean
  have accepted := compatible_of_offered
    (fun pair member => plain pair.2 (List.of_mem_zip member).2) noFindings
  have inferred := InferenceRequest.applyInference_of_clean noErrors
  exact congrArg (ctx.callWith signature args)
    (InferenceRequest.run_argsFor distinct inferred accepted)

/-- The type parameters of a callee. -/
def typeParams (ctx : Context) (callee : Ty) : List (TypeParam Ty) :=
  match ctx.callable? callee with
  | some (.function signature) => signature.typeParams
  | _ => []

/-- What a call infers for the type parameters of its callee, in their order. -/
def inferredArgs (ctx : Context) (callee : Ty) (args : List Ty) : List Ty :=
  (ctx.call callee args none).value.substitution.argsFor (ctx.typeParams callee)

/-- The type arguments that a call has inferred may be written out: nothing is found then either, and
the result and the bindings are the same. -/
theorem call_inferredArgs {callee : Ty} (distinct : ((ctx.typeParams callee).map (·.name)).Nodup)
    (plain : ∀ arg ∈ args, arg.isFreshLiteral = false)
    (clean : (ctx.call callee args none).value.findings = []) :
    (ctx.call callee args (some (ctx.inferredArgs callee args))).value.findings = [] ∧
      (ctx.call callee args (some (ctx.inferredArgs callee args))).value.result =
        (ctx.call callee args none).value.result ∧
      (ctx.call callee args (some (ctx.inferredArgs callee args))).value.substitution =
        (ctx.call callee args none).value.substitution := by
  have same : (ctx.call callee args (some (ctx.inferredArgs callee args))).value =
      (ctx.call callee args none).value := by
    rw [inferredArgs]
    unfold call typeParams at *
    cases found : ctx.callable? callee with
    | none => rfl
    | some callable =>
        cases callable with
        | anyFunction => rfl
        | function signature =>
            rw [found] at distinct clean
            exact callSignature_argsFor distinct plain clean
  rw [same]
  exact ⟨clean, rfl, rfl⟩

/-- A key among others, with a substitute for it that no argument shows. -/
def pickKey : Ty :=
  .function ⟨[⟨"K", some .string⟩, ⟨"S", some (.ref "K")⟩], [.ref "K", .array (.ref "K")],
    .tuple [.ref "K", .ref "S"]⟩

def keyArgs : List Ty := [.literal (.text "id"), .array .string]

theorem pickKey_inferredArgs :
    (({} : Context).call pickKey keyArgs (some [.string, .any])).value.findings = [] ∧
      (({} : Context).call pickKey keyArgs (some [.string, .any])).value.result =
        .tuple [.string, .any] := by
  have distinct : ((({} : Context).typeParams pickKey).map (·.name)).Nodup := by decide
  have plain : ∀ arg ∈ keyArgs, arg.isFreshLiteral = false := by decide
  have clean : (({} : Context).call pickKey keyArgs none).value.findings = [] := by rfl
  have inferred : ({} : Context).inferredArgs pickKey keyArgs = [.string, .any] := by rfl
  have result : (({} : Context).call pickKey keyArgs none).value.result = .tuple [.string, .any] := by
    rfl
  have same := call_inferredArgs distinct plain clean
  rw [inferred, result] at same
  exact ⟨same.1, same.2.1⟩

end Context

end StructuralTypes
