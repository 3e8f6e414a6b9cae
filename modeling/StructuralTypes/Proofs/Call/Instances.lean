import StructuralTypes.Call
import StructuralTypes.Proofs.Compatibility.Alternatives
import StructuralTypes.Proofs.Inference.Patterns
import StructuralTypes.Proofs.ObjectLiteral.Checks

set_option autoImplicit false

namespace StructuralTypes

section Outcomes

variable {α β : Type}

/-- The result, unless some comparison on the way to it gave up. -/
def Limited.Settles (x : Limited α) (a : α) : Prop := x.cut = false → x.value = a

theorem Limited.Settles.pure (a : α) : Limited.Settles (Pure.pure a) a := fun _ => rfl

theorem Limited.Settles.bind {x : Limited α} {f : α → Limited β} {a : α} {b : β}
    (first : x.Settles a) (next : (f a).Settles b) : (x >>= f).Settles b := by
  intro finished
  rw [Limited.cut_bind, Bool.or_eq_false_iff] at finished
  rw [first finished.1] at finished
  rw [Limited.value_bind, first finished.1]
  exact next finished.2

end Outcomes

namespace Context

open ObjectLiteral

variable {ctx : Context} {shape checked : Shape Ty} {path? : Option String}

section Literals

theorem compatible_settles {value target : Ty} (accepted : ctx.Accepts value target) :
    (ctx.compatible value target).Settles true := ctx.compatible_of_accepts accepted

theorem propertyFindings_cons (p : Property Ty) (rest : List (Property Ty)) :
    ctx.propertyFindings path? checked (p :: rest) = (do
      let first ← ctx.slotFindings (joinPath path? p.name) checked p
      return first ++ (← ctx.propertyFindings path? checked rest)) := by
  rw [propertyFindings, slotFindings]
  cases slot? checked p.name with
  | none => rfl
  | some slot => by_cases fresh : p.ty.isFreshLiteral = true <;> simp only [fresh] <;> rfl

theorem propertyFindings_settles {properties : List (Property Ty)}
    (each : ∀ p ∈ properties, (ctx.slotFindings (joinPath path? p.name) checked p).Settles []) :
    (ctx.propertyFindings path? checked properties).Settles [] := by
  induction properties with
  | nil => exact .pure []
  | cons p rest ih =>
      rw [propertyFindings_cons]
      refine (each p (.head _)).bind ?_
      exact (ih fun other later => each other (.tail _ later)).bind (.pure [])

theorem missing_self (properties : List (Property Ty)) :
    missing path? properties properties = [] := by
  rw [missing, List.map_eq_nil_iff, List.filter_eq_nil_iff]
  intro slot member
  have named : findProperty? slot.name properties ≠ none := by
    rw [findProperty?, Ne, List.find?_eq_none]
    intro unnamed
    exact unnamed slot member (beq_self_eq_true slot.name)
  cases found : findProperty? slot.name properties with
  | none => exact absurd found named
  | some => simp

theorem targetFindings_object (value : Ty) (against : Shape Ty → Limited (List Finding)) :
    ctx.targetFindings path? value against (.object shape) = against shape := by
  have own : ctx.aliases.concrete (.object shape) = .object shape :=
    AliasMap.concrete_of_asShape? rfl
  rw [targetFindings, own]
  rfl

/-- A literal has all that it asks for, and nothing else. -/
theorem targetFindings_self (wf : ctx.aliases.WellFormed) (plain : ctx.aliases.Plain) {ty : Ty}
    (literal : ty.isFreshLiteral = true) (wfTy : ty.WellFormed) (free : ty.KeyofFree) :
    (ctx.targetFindings path? ty (ctx.shapeFindings path? ty) ty).Settles [] := by
  induction ty using Ty.childrenInduction generalizing path? with
  | step ty ih =>
      cases ty with
      | object shape =>
          have each : ∀ p ∈ shape.properties,
              (ctx.slotFindings (joinPath path? p.name) shape p).Settles [] := by
            intro p member
            have inside := Ty.property_mem_children member
            have wfSlot := wfTy.property member
            have freeSlot := free.child inside
            have own : slot? shape p.name = some p := by
              have found : shape.property? p.name = some p := findProperty?_of_mem wfTy.node member
              rw [slot?, found]
            rw [slotFindings, own]
            dsimp only
            split
            case isTrue fresh => exact ih p.ty inside fresh wfSlot freeSlot
            case isFalse =>
              have accepted := ctx.accepts_declared wf wfSlot (firm_of_keyofFree plain freeSlot)
              exact (compatible_settles accepted).bind (.pure [])
          have unfolded : ctx.shapeFindings path? (.object shape) shape =
              (ctx.propertyFindings path? shape shape.properties >>= fun found =>
                pure (missing path? shape.properties shape.properties ++ found)) := rfl
          rw [targetFindings_object, unfolded, missing_self]
          exact (propertyFindings_settles each).bind (.pure [])
      | _ => cases literal

end Literals

section Arguments

variable (wf : ctx.aliases.WellFormed) (plain : ctx.aliases.Plain)

include wf plain

/-- An argument goes where its own type is expected. -/
theorem argumentFindings_self {arg : Ty} (wfArg : arg.WellFormed) (free : arg.KeyofFree) :
    (ctx.argumentFindings arg arg).Settles [] := by
  rw [argumentFindings]
  split
  case isTrue fresh =>
    cases arg with
    | object shape => exact targetFindings_self wf plain fresh wfArg free
    | _ => cases fresh
  case isFalse =>
    have accepted := ctx.accepts_of_offer wf ⟨wfArg, wfArg, firm_of_keyofFree plain free, .refl arg⟩
    exact (compatible_settles accepted).bind (.pure [])

theorem argumentsFindings_self {args : List Ty} (wfArgs : ∀ arg ∈ args, arg.WellFormed)
    (free : ∀ arg ∈ args, arg.KeyofFree) :
    (ctx.argumentsFindings (args.map fun arg => (arg, arg))).Settles [] := by
  induction args with
  | nil => exact .pure []
  | cons arg args ih =>
      refine (argumentFindings_self wf plain (wfArgs arg (.head _)) (free arg (.head _))).bind ?_
      have rest := ih (fun other later => wfArgs other (.tail _ later))
        (fun other later => free other (.tail _ later))
      exact rest.bind (.pure [])

end Arguments

end Context

section Instances

open InferenceRequest (recovered)

variable {params : List String} {patterns : List Ty} {p : Ty} {σ : Substitution}

/-- Every type parameter has a well-formed type without `keyof`. -/
def Substitution.Binds (σ : Substitution) (params : List String) : Prop :=
  ∀ name ∈ params, ∃ ty ∈ σ.get? name, ty.WellFormed ∧ ty.KeyofFree

instance : Decidable (σ.Binds params) :=
  inferInstanceAs (Decidable (∀ name ∈ params, ∃ ty ∈ σ.get? name, ty.WellFormed ∧ ty.KeyofFree))

theorem Ty.Pattern.keyofFree_replace (pattern : p.Pattern params) (bound : σ.Binds params) :
    (p.replace σ).KeyofFree := by
  induction pattern using Ty.Pattern.induction with
  | param name pattern =>
      obtain ⟨ty, found, _, free⟩ := bound name pattern.here
      rw [Ty.replace, found]
      exact free
  | node p pattern placed ih =>
      have here : (p.mapParts (Ty.replace σ)).isKeyof = false := by
        cases p with
        | keyof subject => exact pattern.here.elim
        | _ => rfl
      rw [Ty.replace_eq_mapParts pattern.here placed]
      refine .intro here fun child member => ?_
      rw [Ty.children_mapParts pattern.here] at member
      obtain ⟨part, listed, rfl⟩ := List.mem_map.mp member
      exact ih part listed

theorem get?_recovered (each : ∀ p ∈ patterns, p.Pattern params) (listed : p ∈ patterns)
    {name : String} (occurs : name ∈ p.freeNames []) :
    (recovered params patterns σ).get? name = some ((Ty.ref name).replace σ) := by
  have declared := (each p listed).mem_params occurs
  have inside : name ∈ patterns.flatMap (Ty.freeNames []) :=
    List.mem_flatMap.mpr ⟨p, listed, occurs⟩
  rw [recovered, Substitution.get?_ofList, if_pos declared, if_pos inside]

theorem get?_recovered_of_absent {name : String} (declared : name ∈ params)
    (absent : ∀ p ∈ patterns, name ∉ p.freeNames []) :
    (recovered params patterns σ).get? name = some .any := by
  have outside : name ∉ patterns.flatMap (Ty.freeNames []) := by
    intro inside
    obtain ⟨p, listed, occurs⟩ := List.mem_flatMap.mp inside
    exact absent p listed occurs
  rw [recovered, Substitution.get?_ofList, if_pos declared, if_neg outside]

/-- What is found again gives the same instances. -/
theorem substitute_recovered (each : ∀ p ∈ patterns, p.Pattern params) (listed : p ∈ patterns) :
    p.substitute (recovered params patterns σ) = p.substitute σ := by
  have pattern := each p listed
  rw [pattern.substitute_eq_replace, pattern.substitute_eq_replace]
  refine pattern.replace_congr fun name occurs => ?_
  rw [Ty.replace, get?_recovered each listed occurs]
  rfl

/-- What each parameter expects of its argument is the argument itself. -/
theorem zip_recovered (each : ∀ p ∈ patterns, p.Pattern params) :
    (patterns.zip (patterns.map fun p => p.substitute σ)).map
        (fun (param, arg) => (arg, param.substitute (recovered params patterns σ))) =
      (patterns.map fun p => p.substitute σ).map fun arg => (arg, arg) := by
  rw [Inference.zip_map_self, List.map_map]
  refine List.map_congr_left fun p listed => ?_
  exact congrArg _ (substitute_recovered each listed)

theorem recovered_wellFormed (bound : σ.Binds params) :
    (recovered params patterns σ).WellFormed := by
  apply Substitution.WellFormed.ofList
  intro binding member
  obtain ⟨name, declared, rfl⟩ := List.mem_map.mp member
  dsimp only
  split
  case isTrue =>
    obtain ⟨ty, found, wfTy, _⟩ := bound name declared
    rw [Ty.replace, found]
    exact wfTy
  case isFalse => exact .primitive .any

namespace Context

variable (ctx : Context)

/-- A call with instances comes down to a check of each argument against itself. -/
theorem call_instances (distinct : params.Nodup) (each : ∀ p ∈ patterns, p.Pattern params)
    (result : Ty) :
    ctx.call (.function ⟨params.map fun name => ⟨name, none⟩, patterns, result⟩)
        (patterns.map fun p => p.substitute σ) none =
      (ctx.argumentsFindings ((patterns.map fun p => p.substitute σ).map fun arg => (arg, arg)) >>=
        fun findings => pure ⟨result.substitute (recovered params patterns σ),
          recovered params patterns σ, findings⟩) := by
  have callee (signature : Signature Ty) :
      ctx.callable? (.function signature) = some (.function signature) := by
    rw [callable?, AliasMap.concrete_eq_self rfl fun _ => Ty.noConfusion]
    rfl
  have inferred : InferenceRequest.run ctx ⟨params.map fun name => ⟨name, none⟩, patterns,
      patterns.map fun p => p.substitute σ, none⟩ = pure ⟨recovered params patterns σ, []⟩ :=
    InferenceRequest.run_ofInstances distinct each
  rw [call, callee]
  dsimp only
  rw [callSignature, inferred, Limited.pure_bind, List.length_map, if_pos rfl]
  dsimp only
  rw [zip_recovered each]
  rfl

theorem argumentsFindings_instances (wf : ctx.aliases.WellFormed) (plain : ctx.aliases.Plain)
    (bound : σ.Binds params) (each : ∀ p ∈ patterns, p.Pattern params) :
    (ctx.argumentsFindings
      ((patterns.map fun p => p.substitute σ).map fun arg => (arg, arg))).Settles [] := by
  apply argumentsFindings_self wf plain
  · refine List.forall_mem_map.mpr fun p listed => ?_
    rw [← substitute_recovered each listed]
    exact Ty.substitute_wellFormed (recovered_wellFormed bound) (each p listed).wellFormed
  · refine List.forall_mem_map.mpr fun p listed => ?_
    rw [(each p listed).substitute_eq_replace]
    exact (each p listed).keyofFree_replace bound

/-- Inference finds again what was put into the patterns of a generic function, and a call with the
arguments that this gives has no findings. -/
theorem call_inverts_substitution (wf : ctx.aliases.WellFormed) (plain : ctx.aliases.Plain)
    (distinct : params.Nodup) (bound : σ.Binds params) (each : ∀ p ∈ patterns, p.Pattern params)
    (result : Ty) :
    let typeParams : List (TypeParam Ty) := params.map fun name => ⟨name, none⟩
    let args := patterns.map fun p => p.substitute σ
    let call := ctx.call (.function ⟨typeParams, patterns, result⟩) args none
    ∃ found : Substitution,
      InferenceRequest.run ctx ⟨typeParams, patterns, args, none⟩ = pure ⟨found, []⟩ ∧
      (∀ p ∈ patterns, ∀ name ∈ p.freeNames [], ∃ ty own,
        found.get? name = some ty ∧ σ.get? name = some own ∧ ty.Same own) ∧
      (∀ name ∈ params, (∀ p ∈ patterns, name ∉ p.freeNames []) → found.get? name = some .any) ∧
      (call.cut = false → call.value.findings = []) ∧
      call.value.substitution = found ∧ call.value.result = result.substitute found := by
  intro typeParams args call
  have checked : call = _ := ctx.call_instances distinct each result
  have inferred : (InferenceRequest.ofInstances params patterns σ).run ctx = _ :=
    InferenceRequest.run_ofInstances distinct each
  refine ⟨recovered params patterns σ, inferred, ?_, ?_, ?_, ?_, ?_⟩
  · intro p listed name occurs
    obtain ⟨own, found, _⟩ := bound name ((each p listed).mem_params occurs)
    refine ⟨own, own, ?_, found, Ty.same_self own⟩
    rw [get?_recovered each listed occurs, Ty.replace, found]
    rfl
  · intro name declared absent
    exact get?_recovered_of_absent declared absent
  · intro finished
    rw [checked] at finished ⊢
    rw [Limited.cut_bind, Bool.or_eq_false_iff] at finished
    exact ctx.argumentsFindings_instances wf plain bound each finished.1
  · rw [checked]
    rfl
  · rw [checked]
    rfl

/-- Keys are strings and numbers. -/
def keyed : Context where
  aliases := { definitions := [{ name := "Key", body := .unionOf [.string, .number] }] }

/-- A literal that may leave out a key, a function, and a pair; the third parameter does not
occur. -/
def keyedPatterns : List Ty :=
  [.object {
      properties :=
        [⟨"key", .ref "T", false⟩, ⟨"spare", .ref "T", true⟩, ⟨"entry", .ref "U", false⟩]
      index := some ⟨.string, .ref "U"⟩
      fresh := true },
    .function { params := [.ref "U"], result := .record .string (.ref "T") },
    .tuple [.ref "T", .predicate "x" (.array (.ref "U"))]]

def keyedTypes : Substitution :=
  .ofList [("T", .ref "Key"),
    ("U", .object { properties := [⟨"key", .ref "Key", true⟩], fresh := true }), ("V", .null)]

theorem keyed_call_clean :
    let call := keyed.call
      (.function ⟨["T", "U", "V"].map fun name => ⟨name, none⟩, keyedPatterns, .array (.ref "V")⟩)
      (keyedPatterns.map fun p => p.substitute keyedTypes) none
    call.cut = false ∧ call.value.findings = [] ∧ call.value.substitution.get? "V" = some .any := by
  have plain : keyed.aliases.Plain := by
    refine ⟨by decide, fun d listed => ?_⟩
    cases List.mem_singleton.mp listed
    exact ⟨_, rfl⟩
  obtain ⟨found, _, _, others, clean, same, _⟩ := keyed.call_inverts_substitution (by decide) plain
    (by decide : ["T", "U", "V"].Nodup) (by decide : keyedTypes.Binds _)
    (by decide : ∀ p ∈ keyedPatterns, p.Pattern _) (.array (.ref "V"))
  have finished : (keyed.call
      (.function ⟨["T", "U", "V"].map fun name => ⟨name, none⟩, keyedPatterns, .array (.ref "V")⟩)
      (keyedPatterns.map fun p => p.substitute keyedTypes) none).cut = false := by decide
  refine ⟨finished, clean finished, ?_⟩
  rw [same]
  exact others "V" (by decide) (by decide)

end Context

end Instances

end StructuralTypes
