import Mathlib.Data.List.Basic
import StructuralTypes.Ty.Names
import StructuralTypes.Proofs.Ty.Children

set_option autoImplicit false

namespace StructuralTypes.Ty

/-- The type parameters that a type binds in all its parts. -/
def binders : Ty → List String
  | function signature => signature.typeParams.map (·.name)
  | _ => []

/-- The names that stand in a node itself. -/
def ownNames : Ty → List String
  | ref name => [name]
  | ty => ty.binders

/-- The name stands in the type, bound or not. -/
inductive HasName (name : String) : Ty → Prop
  | here {ty : Ty} (own : name ∈ ty.ownNames) : HasName name ty
  | inside {ty child : Ty} (member : child ∈ ty.children) (deep : HasName name child) :
    HasName name ty

/-- A reference to the name stands in the type, under no function that binds it. -/
inductive OccursFree (name : String) : Ty → Prop
  | here : OccursFree name (ref name)
  | inside {ty child : Ty} (unbound : name ∉ ty.binders) (member : child ∈ ty.children)
    (occurs : OccursFree name child) : OccursFree name ty

variable {ty : Ty} {name : String} {bound : List String}

/-- What holds of references, and of any other type if it holds of its parts, holds of every type. -/
theorem partsInduction {motive : Ty → Prop} (ref : ∀ own, motive (ref own))
    (parts : ∀ ty : Ty, ty.refName? = none → (∀ child ∈ ty.children, motive child) → motive ty)
    (ty : Ty) : motive ty := by
  induction ty using childrenInduction with
  | step ty ih =>
      cases ty with
      | ref own => exact ref own
      | _ => exact parts _ rfl ih

theorem freeNamesAll_eq_flatMap (bound : List String) (tys : List Ty) :
    freeNamesAll bound tys = tys.flatMap (freeNames bound) := by
  induction tys with
  | nil => rfl
  | cons ty tys ih => rw [freeNamesAll, ih, List.flatMap_cons]

theorem freeNamesProperties_eq_flatMap (bound : List String) (properties : List (Property Ty)) :
    freeNamesProperties bound properties = properties.flatMap fun q => q.ty.freeNames bound := by
  induction properties with
  | nil => rfl
  | cons q qs ih => rw [freeNamesProperties, ih, List.flatMap_cons]

theorem freeNamesConstraints_eq_flatMap (bound : List String) (params : List (TypeParam Ty)) :
    freeNamesConstraints bound params =
      (params.filterMap (·.constraint)).flatMap (freeNames bound) := by
  induction params with
  | nil => rfl
  | cons param params ih =>
      obtain ⟨own, _ | constraint⟩ := param <;> simp [freeNamesConstraints, ih]

/-- The free names of a type that is no reference are those of its parts, from left to right. -/
theorem freeNames_of_parts (placed : ty.refName? = none) :
    ty.freeNames bound = ty.children.flatMap (freeNames (ty.binders ++ bound)) := by
  cases ty with
  | ref own => cases placed
  | object shape =>
      obtain ⟨properties, _ | index, className, fresh⟩ := shape <;>
        simp [freeNames, freeNamesProperties_eq_flatMap, freeNamesIndex, children, binders,
          Shape.parts, List.flatMap_map]
  | function signature =>
      obtain ⟨typeParams, params, result⟩ := signature
      simp [freeNames, freeNamesConstraints_eq_flatMap, freeNamesAll_eq_flatMap, children, binders,
        Signature.parts]
  | _ => simp [freeNames, freeNamesAll_eq_flatMap, children, binders]

/-- Only which names are bound matters, not in which order they were. -/
theorem freeNames_congr {others : List String} (same : ∀ name, name ∈ bound ↔ name ∈ others) :
    ty.freeNames bound = ty.freeNames others := by
  induction ty using partsInduction generalizing bound others with
  | ref own => simp [freeNames, same]
  | parts ty placed ih =>
      rw [freeNames_of_parts placed, freeNames_of_parts placed]
      refine List.flatMap_congr fun child member => ih child member fun name => ?_
      rw [List.mem_append, List.mem_append, same]

theorem occursFree_iff_of_parts (placed : ty.refName? = none) :
    ty.OccursFree name ↔ name ∉ ty.binders ∧ ∃ child ∈ ty.children, child.OccursFree name := by
  constructor
  · intro occurs
    cases occurs with
    | here => cases placed
    | inside unbound member occurs => exact ⟨unbound, _, member, occurs⟩
  · rintro ⟨unbound, child, member, occurs⟩
    exact .inside unbound member occurs

theorem occursFree_ref_iff {own : String} : (ref own).OccursFree name ↔ name = own := by
  constructor
  · intro occurs
    cases occurs with
    | here => rfl
    | inside unbound member occurs => cases member
  · rintro rfl
    exact .here

/-- The collected names are exactly those that stand free and are not bound from outside. -/
theorem mem_freeNames_iff : name ∈ ty.freeNames bound ↔ name ∉ bound ∧ ty.OccursFree name := by
  induction ty using partsInduction generalizing bound with
  | ref own =>
      simp only [freeNames, occursFree_ref_iff, List.contains_iff_mem]
      grind
  | parts ty placed ih =>
      rw [freeNames_of_parts placed, occursFree_iff_of_parts placed, List.mem_flatMap]
      constructor
      · rintro ⟨child, member, inside⟩
        obtain ⟨outside, occurs⟩ := (ih child member).mp inside
        rw [List.mem_append, not_or] at outside
        exact ⟨outside.2, outside.1, child, member, occurs⟩
      · rintro ⟨outside, unbound, child, member, occurs⟩
        refine ⟨child, member, (ih child member).mpr ⟨?_, occurs⟩⟩
        rw [List.mem_append, not_or]
        exact ⟨unbound, outside⟩

instance : Decidable (ty.OccursFree name) :=
  decidable_of_iff (name ∈ ty.freeNames []) (by simp [mem_freeNames_iff])

end StructuralTypes.Ty
