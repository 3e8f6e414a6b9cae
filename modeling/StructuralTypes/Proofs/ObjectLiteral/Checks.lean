import StructuralTypes.ObjectLiteral
import StructuralTypes.Proofs.Compatibility.Derivation
import StructuralTypes.Proofs.Merge

set_option autoImplicit false

namespace StructuralTypes

/-- The shape that a literal is checked against for a concrete target, if it is checked against one. -/
def AliasMap.checkedShape? (aliases : AliasMap) (target : Ty) : Option (Shape Ty) :=
  match target with
  | .intersectionOf members =>
    match aliases.merge (.intersectionOf members) with
    | .shape shape => some shape
    | _ => none
  | _ => target.asShape?

namespace Context

open ObjectLiteral

/-- A literal has no findings. Its path matters for their texts only. -/
def Clean (ctx : Context) (literal : Shape Ty) (target : Ty) : Prop :=
  ∃ path? : Option String, (ctx.targetFindings path? (.object literal)
    (ctx.shapeFindings path? (.object literal)) target).value = []

variable {ctx : Context} {literal checked : Shape Ty} {path? : Option String}

/-- Findings for one property of a literal. -/
def slotFindings (ctx : Context) (path : String) (checked : Shape Ty) (p : Property Ty) :
    Limited (List Finding) :=
  match slot? checked p.name with
  | some slot =>
    if p.ty.isFreshLiteral then
      ctx.targetFindings (some path) p.ty (ctx.shapeFindings (some path) p.ty) slot.ty
    else ctx.valueFindings path p.ty slot
  | none => pure <| if ctx.options.excessProperties then [.excessProperty path] else []

theorem propertyFindings_value (properties : List (Property Ty)) :
    (ctx.propertyFindings path? checked properties).value = properties.flatMap fun p =>
      (ctx.slotFindings (joinPath path? p.name) checked p).value := by
  induction properties with
  | nil => rfl
  | cons p rest ih =>
      rw [propertyFindings, List.flatMap_cons, ← ih, slotFindings]
      cases slot? checked p.name with
      | none => rfl
      | some slot =>
          by_cases fresh : p.ty.isFreshLiteral = true
          · simp only [fresh, if_true]
            rfl
          · simp only [fresh]
            rfl

theorem shapeFindings_value :
    (ctx.shapeFindings path? (.object literal) checked).value =
      missing path? literal.properties checked.properties ++
        literal.properties.flatMap fun p =>
          (ctx.slotFindings (joinPath path? p.name) checked p).value := by
  rw [← propertyFindings_value]
  rfl

theorem missing_clean (clean : missing path? literal.properties checked.properties = [])
    {slot : Property Ty} (member : slot ∈ checked.properties) (needed : slot.optional = false) :
    literal.property? slot.name ≠ none := by
  intro absent
  have absent' : findProperty? slot.name literal.properties = none := absent
  have listed : slot ∈ checked.properties.filter fun slot =>
      !slot.optional && (findProperty? slot.name literal.properties).isNone :=
    List.mem_filter.mpr ⟨member, by simp [needed, absent']⟩
  rw [missing, List.map_eq_nil_iff] at clean
  rw [clean] at listed
  cases listed

theorem fallback_clean {value target : Ty} (clean : (ctx.fallback path? value target).value = []) :
    (ctx.compatible value target).value = true := by
  unfold fallback at clean
  rw [Limited.value_bind] at clean
  split at clean
  case isTrue yes => exact yes
  case isFalse => cases path? <;> cases clean

/-- What a literal without findings against a shape was found to have. -/
structure CleanAgainst (ctx : Context) (literal checked : Shape Ty) : Prop where
  present : ∀ name, Requires checked.properties name → literal.property? name ≠ none
  values : ∀ p ∈ literal.properties, p.ty.isFreshLiteral = false → ∀ slot,
    slot? checked p.name = some slot → (ctx.compatible p.ty slot.declared).value = true
  literals : ∀ p ∈ literal.properties, ∀ own, p.ty = .object own → p.ty.isFreshLiteral = true →
    ∀ slot, slot? checked p.name = some slot → ctx.Clean own slot.ty

theorem cleanAgainst_of_shapeFindings
    (clean : (ctx.shapeFindings path? (.object literal) checked).value = []) :
    CleanAgainst ctx literal checked := by
  rw [shapeFindings_value, List.append_eq_nil_iff, List.flatMap_eq_nil_iff] at clean
  constructor
  · rintro _ ⟨slot, member, rfl, needed⟩
    exact missing_clean clean.1 member needed
  · intro p member plain slot found
    have none := clean.2 p member
    rw [slotFindings, found] at none
    simp only [plain, Bool.false_eq_true, if_false] at none
    rw [valueFindings, Limited.value_bind] at none
    split at none
    case isTrue yes => exact yes
    case isFalse => cases none
  · intro p member own isObject fresh slot found
    have none := clean.2 p member
    rw [slotFindings, found] at none
    simp only [fresh, if_true] at none
    rw [isObject] at none
    exact ⟨_, none⟩

theorem literalFindings_checked {value target : Ty} {against : Shape Ty → Limited (List Finding)}
    (shaped : ctx.aliases.checkedShape? target = some checked) :
    ctx.literalFindings path? value against target = against checked := by
  cases target with
  | object own =>
      cases shaped
      rfl
  | record key value =>
      cases shaped
      rfl
  | intersectionOf members =>
      unfold literalFindings
      rw [AliasMap.checkedShape?] at shaped
      dsimp only
      split at shaped
      case h_1 shape merges =>
        cases shaped
        rw [merges]
      case h_2 => cases shaped
  | _ => cases shaped

theorem targetFindings_single {value target : Ty} {against : Shape Ty → Limited (List Finding)}
    (single : (ctx.aliases.concrete target).isUnion = false) :
    ctx.targetFindings path? value against target =
      ctx.literalFindings path? value against (ctx.aliases.concrete target) := by
  unfold targetFindings
  split
  case h_1 members resolved =>
    rw [resolved] at single
    cases single
  case h_2 => rfl

theorem isUnion_of_checkedShape? {aliases : AliasMap} {target : Ty}
    (shaped : aliases.checkedShape? target = some checked) : target.isUnion = false := by
  cases target with
  | unionOf members => cases shaped
  | _ => rfl

theorem cleanAgainst_of_clean {target : Ty}
    (shaped : ctx.aliases.checkedShape? (ctx.aliases.concrete target) = some checked)
    (clean : ctx.Clean literal target) : CleanAgainst ctx literal checked := by
  obtain ⟨path?, clean⟩ := clean
  rw [targetFindings_single (isUnion_of_checkedShape? shaped), literalFindings_checked shaped] at clean
  exact cleanAgainst_of_shapeFindings clean

/-- Against a target without a shape, no findings mean that the comparison said yes. -/
theorem compatible_of_clean {target : Ty}
    (unshaped : ctx.aliases.checkedShape? (ctx.aliases.concrete target) = none)
    (single : (ctx.aliases.concrete target).isUnion = false)
    (apart : (ctx.aliases.concrete target).isIntersection = true →
      ctx.aliases.merge (ctx.aliases.concrete target) = .notMergeable)
    (clean : ctx.Clean literal target) :
    ctx.aliases.concrete target = .any ∨
      (ctx.compatible (.object literal) (ctx.aliases.concrete target)).value = true := by
  obtain ⟨path?, clean⟩ := clean
  rw [targetFindings_single single] at clean
  generalize ctx.aliases.concrete target = concrete at *
  unfold literalFindings at clean
  split at clean
  case h_1 => exact Or.inl rfl
  case h_2 => cases unshaped
  case h_3 => cases unshaped
  case h_4 members =>
    rw [apart rfl] at clean
    exact Or.inr (fallback_clean clean)
  case h_5 => exact Or.inr (fallback_clean clean)

theorem not_derivable_never {aliases : AliasMap} {around : List Query} :
    ¬ Derivable aliases around ⟨.object literal, .never⟩ := by
  intro derived
  have refused : (Query.concrete ⟨.object literal, .never⟩ aliases).settled? = some false := by
    rw [Query.concrete, AliasMap.concrete_of_asShape? rfl,
      AliasMap.concrete_eq_self rfl fun _ => Ty.noConfusion]
    rfl
  cases derived with
  | settled answer =>
      rw [refused] at answer
      cases answer
  | cycle undecided | all undecided | any undecided =>
      rw [refused] at undecided
      cases undecided

/-- A literal that was checked against the type of a slot counts as checked against what the slot
accepts, except that an optional slot may accept a union. -/
theorem clean_declared {slot : Property Ty} (wf : slot.ty.WellFormed)
    (clean : ctx.Clean literal slot.ty)
    (single : (ctx.aliases.concrete slot.declared).isUnion = false) :
    ctx.Clean literal slot.declared := by
  rw [Property.declared] at single ⊢
  split
  case isTrue optional =>
    rw [if_pos optional] at single
    have alone : (Ty.union [slot.ty, .undefined]).isUnion = false := by
      cases extended : Ty.union [slot.ty, .undefined] with
      | unionOf members =>
          rw [extended, AliasMap.concrete_eq_self rfl fun _ => Ty.noConfusion] at single
          cases single
      | _ => rfl
    have plain (kind : Primitive) : ctx.aliases.concrete (.primitive kind) = .primitive kind :=
      AliasMap.concrete_eq_self rfl fun _ => Ty.noConfusion
    rcases Ty.union_undefined_single wf alone with isNever | isAny | isUndefined
    · -- No literal goes where `never` is expected.
      rw [isNever] at clean
      have outcome := compatible_of_clean (by rw [plain]; rfl) (by rw [plain]; rfl)
        (by rw [plain]; exact fun impossible => Bool.noConfusion impossible) clean
      rw [plain] at outcome
      rcases outcome with impossible | accepted
      · cases impossible
      · exact (not_derivable_never (@derivable_of_compatible ctx _ _ [] accepted)).elim
    · rw [isAny] at clean ⊢
      exact clean
    · rw [isUndefined] at clean ⊢
      exact clean
  case isFalse => exact clean

end Context

end StructuralTypes
