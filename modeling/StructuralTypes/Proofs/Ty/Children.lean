import StructuralTypes.Ty

set_option autoImplicit false

namespace StructuralTypes

namespace Shape

/-- The types of all slots, named ones first. -/
def parts {α : Type} (shape : Shape α) : List α :=
  shape.properties.map (·.ty) ++ shape.index.toList.flatMap (fun index => [index.key, index.value])

end Shape

namespace Signature

/-- The constraints of the type parameters, the parameters and the result. -/
def parts {α : Type} (signature : Signature α) : List α :=
  signature.typeParams.filterMap (·.constraint) ++ signature.params ++ [signature.result]

end Signature

namespace Ty

/-- The types that a type is directly made of. -/
def children : Ty → List Ty
  | primitive _ | literal _ | anyFunction | ref _ => []
  | array element => [element]
  | tuple elements => elements
  | object shape => shape.parts
  | record key value => [key, value]
  | unionOf members => members
  | intersectionOf members => members
  | function signature => signature.parts
  | keyof subject => [subject]
  | predicate _ guard => [guard]

theorem exists_unionOf {ty : Ty} (several : ty.isUnion = true) : ∃ members, ty = unionOf members := by
  cases ty with
  | unionOf members => exact ⟨members, rfl⟩
  | _ => cases several

theorem size_le_sizeAll {ty : Ty} {tys : List Ty} (member : ty ∈ tys) : ty.size ≤ sizeAll tys := by
  induction tys with
  | nil => cases member
  | cons first rest ih =>
      simp only [sizeAll]
      rcases List.mem_cons.mp member with rfl | later
      · omega
      · have := ih later
        omega

theorem size_le_sizeProperties {property : Property Ty} {properties : List (Property Ty)}
    (member : property ∈ properties) : property.ty.size ≤ sizeProperties properties := by
  induction properties with
  | nil => cases member
  | cons first rest ih =>
      simp only [sizeProperties]
      rcases List.mem_cons.mp member with rfl | later
      · omega
      · have := ih later
        omega

theorem size_le_sizeTypeParams {param : TypeParam Ty} {params : List (TypeParam Ty)}
    {constraint : Ty} (member : param ∈ params) (bound : param.constraint = some constraint) :
    constraint.size ≤ sizeTypeParams params := by
  induction params with
  | nil => cases member
  | cons first rest ih =>
      obtain ⟨name, constraint?⟩ := first
      rcases List.mem_cons.mp member with rfl | later
      · cases bound
        simp only [sizeTypeParams]
        omega
      · have := ih later
        cases constraint? <;> simp only [sizeTypeParams] <;> omega

theorem size_pos (ty : Ty) : 0 < ty.size := by
  cases ty with
  | object shape =>
      obtain ⟨properties, index, className, fresh⟩ := shape
      cases index <;> exact Nat.succ_pos _
  | function signature => exact Nat.succ_pos _
  | _ => exact Nat.succ_pos _

theorem size_child_lt {child ty : Ty} (member : child ∈ ty.children) : child.size < ty.size := by
  cases ty with
  | primitive kind => cases member
  | literal value => cases member
  | anyFunction => cases member
  | ref name => cases member
  | array element =>
      simp only [children, List.mem_singleton] at member
      simp only [member, size]
      omega
  | tuple elements =>
      have : child.size ≤ sizeAll elements := size_le_sizeAll member
      simp only [size]
      omega
  | object shape =>
      obtain ⟨properties, index, className, fresh⟩ := shape
      simp only [children, Shape.parts, List.mem_append, List.mem_map] at member
      rcases member with ⟨property, declared, rfl⟩ | member
      · have := size_le_sizeProperties declared
        cases index <;> simp only [size] <;> omega
      · cases index with
        | none => simp at member
        | some index =>
            simp only [Option.toList_some, List.flatMap_cons, List.flatMap_nil, List.append_nil,
              List.mem_cons, List.not_mem_nil, or_false] at member
            rcases member with rfl | rfl <;> simp only [size] <;> omega
  | record key value =>
      simp only [children, List.mem_cons, List.not_mem_nil, or_false] at member
      rcases member with rfl | rfl <;> simp only [size] <;> omega
  | unionOf members =>
      have : child.size ≤ sizeAll members := size_le_sizeAll member
      simp only [size]
      omega
  | intersectionOf members =>
      have : child.size ≤ sizeAll members := size_le_sizeAll member
      simp only [size]
      omega
  | function signature =>
      obtain ⟨typeParams, params, result⟩ := signature
      simp only [children, Signature.parts, List.mem_append, List.mem_filterMap,
        List.mem_singleton] at member
      simp only [size]
      rcases member with (⟨param, declared, bound⟩ | param) | rfl
      · have := size_le_sizeTypeParams declared bound
        omega
      · have := size_le_sizeAll param
        omega
      · omega
  | keyof subject =>
      simp only [children, List.mem_singleton] at member
      simp only [member, size]
      omega
  | predicate parameter guard =>
      simp only [children, List.mem_singleton] at member
      simp only [member, size]
      omega

/-- What holds of a type whenever it holds of its direct parts holds of every type. -/
theorem childrenInduction {motive : Ty → Prop}
    (step : ∀ ty : Ty, (∀ child ∈ ty.children, motive child) → motive ty) (ty : Ty) : motive ty :=
  step ty fun child _member => childrenInduction step child
termination_by ty.size
decreasing_by exact size_child_lt (by assumption)

/-- A predicate holds of a type and of everything inside of it. -/
inductive Throughout (node : Ty → Prop) : Ty → Prop
  | intro {ty : Ty} (here : node ty) (parts : ∀ child ∈ ty.children, Throughout node child) :
    Throughout node ty

namespace Throughout

variable {node : Ty → Prop} {ty : Ty}

theorem here (known : ty.Throughout node) : node ty := by
  cases known with
  | intro here parts => exact here

theorem child (known : ty.Throughout node) {child : Ty} (member : child ∈ ty.children) :
    child.Throughout node := by
  cases known with
  | intro here parts => exact parts child member

/-- The test of all nodes within a number of levels. -/
def within (node : Ty → Prop) [DecidablePred node] : Nat → Ty → Bool
  | 0, _ => false
  | levels + 1, ty => decide (node ty) && ty.children.all (within node levels)

theorem within_iff [DecidablePred node] {levels : Nat} (deep : ty.size ≤ levels) :
    within node levels ty = true ↔ ty.Throughout node := by
  induction levels generalizing ty with
  | zero =>
      have positive := ty.size_pos
      omega
  | succ levels ih =>
      have inside (child : Ty) (member : child ∈ ty.children) :
          within node levels child = true ↔ child.Throughout node :=
        ih (by have := size_child_lt member; omega)
      simp only [within, Bool.and_eq_true, decide_eq_true_eq, List.all_eq_true]
      constructor
      · rintro ⟨here, parts⟩
        exact .intro here fun child member => (inside child member).mp (parts child member)
      · intro known
        exact ⟨known.here, fun child member => (inside child member).mpr (known.child member)⟩

instance [DecidablePred node] : Decidable (ty.Throughout node) :=
  decidable_of_iff _ (within_iff (Nat.le_refl ty.size))

end Throughout

theorem property_mem_children {shape : Shape Ty} {property : Property Ty}
    (member : property ∈ shape.properties) : property.ty ∈ (object shape).children :=
  List.mem_append_left _ (List.mem_map_of_mem member)

theorem indexKey_mem_children {shape : Shape Ty} {index : IndexSignature Ty}
    (found : shape.index = some index) : index.key ∈ (object shape).children := by
  simp [children, Shape.parts, found]

theorem indexValue_mem_children {shape : Shape Ty} {index : IndexSignature Ty}
    (found : shape.index = some index) : index.value ∈ (object shape).children := by
  simp [children, Shape.parts, found]

/-- What holds of the types of all slots holds of all parts of an object. -/
theorem forall_mem_children_object {shape : Shape Ty} {holds : Ty → Prop}
    (properties : ∀ p ∈ shape.properties, holds p.ty)
    (index : ∀ i, shape.index = some i → holds i.key ∧ holds i.value) :
    ∀ child ∈ (object shape).children, holds child := by
  intro child member
  rcases List.mem_append.mp member with slot | signature
  · obtain ⟨p, declared, rfl⟩ := List.mem_map.mp slot
    exact properties p declared
  · obtain ⟨i, found, side⟩ := List.mem_flatMap.mp signature
    have parts := index i (by simpa using found)
    simp only [List.mem_cons, List.not_mem_nil, or_false] at side
    rcases side with rfl | rfl
    · exact parts.1
    · exact parts.2

theorem constraint_mem_children {signature : Signature Ty} {param : TypeParam Ty} {constraint : Ty}
    (member : param ∈ signature.typeParams) (bound : param.constraint = some constraint) :
    constraint ∈ (function signature).children := by
  simp only [children, Signature.parts, List.mem_append, List.mem_filterMap]
  exact Or.inl (Or.inl ⟨param, member, bound⟩)

theorem param_mem_children {signature : Signature Ty} {param : Ty}
    (member : param ∈ signature.params) : param ∈ (function signature).children := by
  simp [children, Signature.parts, member]

theorem result_mem_children (signature : Signature Ty) :
    signature.result ∈ (function signature).children := by
  simp [children, Signature.parts]

end Ty

end StructuralTypes
