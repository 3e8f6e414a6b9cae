import StructuralTypes.Proofs.NormalForm.Types

set_option autoImplicit false

namespace StructuralTypes

namespace Ty

mutual

/-- The type in which no object counts as a fresh literal, at any depth. -/
def bare : Ty → Ty
  | primitive kind => primitive kind
  | literal value => literal value
  | array element => array element.bare
  | tuple elements => tuple (bareAll elements)
  | object ⟨properties, index, className, _⟩ =>
    object ⟨bareProperties properties, bareIndex index, className, false⟩
  | record key value => record key.bare value.bare
  | unionOf members => unionOf (bareAll members)
  | intersectionOf members => intersectionOf (bareAll members)
  | anyFunction => anyFunction
  | function ⟨typeParams, params, result⟩ =>
    function ⟨bareTypeParams typeParams, bareAll params, result.bare⟩
  | ref name => ref name
  | keyof subject => keyof subject.bare
  | predicate parameter guard => predicate parameter guard.bare
termination_by structural ty => ty

def bareAll : List Ty → List Ty
  | [] => []
  | ty :: tys => ty.bare :: bareAll tys
termination_by structural tys => tys

def bareProperties : List (Property Ty) → List (Property Ty)
  | [] => []
  | ⟨name, ty, optional⟩ :: properties => ⟨name, ty.bare, optional⟩ :: bareProperties properties
termination_by structural properties => properties

def bareIndex : Option (IndexSignature Ty) → Option (IndexSignature Ty)
  | none => none
  | some ⟨key, value⟩ => some ⟨key.bare, value.bare⟩
termination_by structural index => index

def bareTypeParams : List (TypeParam Ty) → List (TypeParam Ty)
  | [] => []
  | ⟨name, none⟩ :: params => ⟨name, none⟩ :: bareTypeParams params
  | ⟨name, some constraint⟩ :: params => ⟨name, some constraint.bare⟩ :: bareTypeParams params
termination_by structural params => params

end

end Ty

/-- A slot without marks in its type. -/
def Property.bare (property : Property Ty) : Property Ty := { property with ty := property.ty.bare }

def IndexSignature.bare (index : IndexSignature Ty) : IndexSignature Ty :=
  ⟨index.key.bare, index.value.bare⟩

def Shape.bare (shape : Shape Ty) : Shape Ty where
  properties := shape.properties.map Property.bare
  index := shape.index.map IndexSignature.bare
  className := shape.className

def Signature.bare (signature : Signature Ty) : Signature Ty where
  typeParams := Ty.bareTypeParams signature.typeParams
  params := signature.params.map Ty.bare
  result := signature.result.bare

namespace Ty

@[simp] theorem bareAll_eq_map (tys : List Ty) : bareAll tys = tys.map bare := by
  induction tys with
  | nil => rfl
  | cons ty tys ih => rw [bareAll, ih, List.map_cons]

theorem bareProperties_eq_map (properties : List (Property Ty)) :
    bareProperties properties = properties.map Property.bare := by
  induction properties with
  | nil => rfl
  | cons p ps ih =>
      rw [bareProperties, ih, List.map_cons]
      rfl

theorem bareIndex_eq_map (index : Option (IndexSignature Ty)) :
    bareIndex index = index.map IndexSignature.bare := by
  cases index <;> rfl

theorem length_bareAll (tys : List Ty) : (bareAll tys).length = tys.length := by
  rw [bareAll_eq_map, List.length_map]

theorem length_bareProperties (properties : List (Property Ty)) :
    (bareProperties properties).length = properties.length := by
  rw [bareProperties_eq_map, List.length_map]

@[simp] theorem bare_object (shape : Shape Ty) : (object shape).bare = object shape.bare := by
  obtain ⟨properties, index, className, fresh⟩ := shape
  rw [bare, bareProperties_eq_map, bareIndex_eq_map]
  rfl

@[simp] theorem bare_function (signature : Signature Ty) :
    (function signature).bare = function signature.bare := by
  obtain ⟨typeParams, params, result⟩ := signature
  rw [bare, bareAll_eq_map]
  rfl

@[simp] theorem bare_unionOf (members : List Ty) :
    (unionOf members).bare = unionOf (members.map bare) := by
  rw [bare, bareAll_eq_map]

@[simp] theorem bare_intersectionOf (members : List Ty) :
    (intersectionOf members).bare = intersectionOf (members.map bare) := by
  rw [bare, bareAll_eq_map]

@[simp] theorem bare_tuple (elements : List Ty) :
    (tuple elements).bare = tuple (elements.map bare) := by
  rw [bare, bareAll_eq_map]

@[simp] theorem isAny_bare (ty : Ty) : ty.bare.isAny = ty.isAny := by
  cases ty <;> rfl

@[simp] theorem isNever_bare (ty : Ty) : ty.bare.isNever = ty.isNever := by
  cases ty <;> rfl

@[simp] theorem isUnion_bare (ty : Ty) : ty.bare.isUnion = ty.isUnion := by
  cases ty <;> rfl

@[simp] theorem isIntersection_bare (ty : Ty) : ty.bare.isIntersection = ty.isIntersection := by
  cases ty <;> rfl

@[simp] theorem primitive?_bare (ty : Ty) : ty.bare.primitive? = ty.primitive? := by
  cases ty <;> rfl

@[simp] theorem unionMembers_bare (ty : Ty) : ty.bare.unionMembers = ty.unionMembers.map bare := by
  cases ty with
  | unionOf members => rw [bare_unionOf, unionMembers, unionMembers]
  | _ => rfl

@[simp] theorem intersectionMembers_bare (ty : Ty) :
    ty.bare.intersectionMembers = ty.intersectionMembers.map bare := by
  cases ty with
  | intersectionOf members => rw [bare_intersectionOf, intersectionMembers, intersectionMembers]
  | _ => rfl

@[simp] theorem asShape?_bare (ty : Ty) : ty.bare.asShape? = ty.asShape?.map Shape.bare := by
  cases ty with
  | object shape => rw [bare_object, asShape?, asShape?, Option.map_some]
  | _ => rfl

section Equality

mutual

theorem same_bare : (a b : Ty) → a.bare.same b.bare = a.same b
  | primitive kind, b => by cases b <;> rfl
  | literal value, b => by cases b <;> rfl
  | anyFunction, b => by cases b <;> rfl
  | ref name, b => by cases b <;> rfl
  | array element, b => by
      cases b with
      | array other => exact same_bare element other
      | _ => rfl
  | tuple elements, b => by
      cases b with
      | tuple others => exact sameEach_bare elements others
      | _ => rfl
  | object ⟨properties, index, className, _⟩, b => by
      cases b with
      | object shape =>
          obtain ⟨others, index', className', fresh⟩ := shape
          simp only [bare, same, sameProperties_bare properties others, sameIndex_bare index index',
            length_bareProperties]
      | _ => rfl
  | record key value, b => by
      cases b with
      | record key' value' => simp only [bare, same, same_bare key key', same_bare value value']
      | _ => rfl
  | unionOf members, b => by
      cases b with
      | unionOf others =>
          simp only [bare, same, sameAmong_bare members others, length_bareAll]
      | _ => rfl
  | intersectionOf members, b => by
      cases b with
      | intersectionOf others =>
          simp only [bare, same, sameAmong_bare members others, length_bareAll]
      | _ => rfl
  | function ⟨typeParams, params, result⟩, b => by
      cases b with
      | function signature =>
          obtain ⟨typeParams', params', result'⟩ := signature
          simp only [bare, same, sameTypeParams_bare typeParams typeParams',
            sameEach_bare params params', same_bare result result']
      | _ => rfl
  | keyof subject, b => by
      cases b with
      | keyof other => exact same_bare subject other
      | _ => rfl
  | predicate parameter guard, b => by
      cases b with
      | predicate parameter' guard' => simp only [bare, same, same_bare guard guard']
      | _ => rfl
termination_by structural a => a

theorem sameEach_bare : (as bs : List Ty) → sameEach (bareAll as) (bareAll bs) = sameEach as bs
  | [], bs => by cases bs <;> rfl
  | a :: as, bs => by
      cases bs with
      | nil => rfl
      | cons b bs => simp only [bareAll, sameEach, same_bare a b, sameEach_bare as bs]
termination_by structural as => as

theorem sameAmong_bare : (as bs : List Ty) → sameAmong (bareAll as) (bareAll bs) = sameAmong as bs
  | [], bs => rfl
  | a :: as, bs => by
      have first : (bareAll bs).any (fun b => a.bare.same b) = bs.any (fun b => a.same b) := by
        rw [bareAll_eq_map, List.any_map]
        exact congrArg bs.any (funext fun b => same_bare a b)
      simp only [bareAll, sameAmong, sameAmong_bare as bs]
      rw [first]
termination_by structural as => as

theorem sameProperties_bare : (ps qs : List (Property Ty)) →
    sameProperties (bareProperties ps) (bareProperties qs) = sameProperties ps qs
  | [], qs => rfl
  | ⟨name, ty, optional⟩ :: ps, qs => by
      have first : (bareProperties qs).any
            (fun q => q.name == name && ty.bare.same q.ty && optional == q.optional) =
          qs.any (fun q => q.name == name && ty.same q.ty && optional == q.optional) := by
        rw [bareProperties_eq_map, List.any_map]
        refine congrArg qs.any (funext fun q => ?_)
        simp only [Function.comp_apply, Property.bare, same_bare ty q.ty]
      simp only [bareProperties, sameProperties, sameProperties_bare ps qs]
      rw [first]
termination_by structural ps => ps

theorem sameIndex_bare : (i j : Option (IndexSignature Ty)) →
    sameIndex (bareIndex i) (bareIndex j) = sameIndex i j
  | none, j => by cases j <;> rfl
  | some ⟨key, value⟩, j => by
      cases j with
      | none => rfl
      | some other => simp only [bareIndex, sameIndex, same_bare key other.key,
          same_bare value other.value]
termination_by structural i => i

theorem sameTypeParams_bare : (ts us : List (TypeParam Ty)) →
    sameTypeParams (bareTypeParams ts) (bareTypeParams us) = sameTypeParams ts us
  | [], us => by
      cases us with
      | nil => rfl
      | cons u us => obtain ⟨name, _ | c⟩ := u <;> rfl
  | ⟨name, none⟩ :: ts, us => by
      cases us with
      | nil => rfl
      | cons u us =>
          obtain ⟨other, _ | d⟩ := u
          · simp only [bareTypeParams, sameTypeParams, sameTypeParams_bare ts us]
          · rfl
  | ⟨name, some c⟩ :: ts, us => by
      cases us with
      | nil => rfl
      | cons u us =>
          obtain ⟨other, _ | d⟩ := u
          · rfl
          · simp only [bareTypeParams, sameTypeParams, sameTypeParams_bare ts us, same_bare c d]
termination_by structural ts => ts

end

theorem isAmong_bare (ty : Ty) (tys : List Ty) : ty.bare.isAmong (tys.map bare) = ty.isAmong tys := by
  rw [isAmong, isAmong, List.any_map]
  exact congrArg tys.any (funext fun other => same_bare other ty)

end Equality

section Constructors

theorem distinctFrom_bare (kept tys : List Ty) :
    distinctFrom (kept.map bare) (tys.map bare) = (distinctFrom kept tys).map bare := by
  induction tys generalizing kept with
  | nil => rfl
  | cons ty tys ih =>
      have later := ih (kept ++ [ty])
      rw [List.map_append, List.map_singleton] at later
      rw [List.map_cons, distinctFrom, distinctFrom, isAmong_bare, ih, later]
      split <;> rfl

theorem distinct_bare (tys : List Ty) : distinct (tys.map bare) = (distinct tys).map bare :=
  distinctFrom_bare [] tys

theorem isAbsorbed_bare (tys : List Ty) (ty : Ty) :
    isAbsorbed (tys.map bare) ty.bare = isAbsorbed tys ty := by
  cases ty with
  | literal value =>
      show (tys.map bare).any _ = tys.any _
      rw [List.any_map]
      refine congrArg tys.any (funext fun other => ?_)
      rw [Function.comp_apply, primitive?_bare]
  | _ => rfl

theorem any_isAny_bare (tys : List Ty) : (tys.map bare).any isAny = tys.any isAny := by
  rw [List.any_map]
  exact congrArg tys.any (funext isAny_bare)

theorem any_isNever_bare (tys : List Ty) : (tys.map bare).any isNever = tys.any isNever := by
  rw [List.any_map]
  exact congrArg tys.any (funext isNever_bare)

theorem keptMembers_bare (members : List Ty) :
    keptMembers (members.map bare) = (keptMembers members).map bare := by
  have inhabited : (members.map bare).filter (fun ty => !ty.isNever) =
      (members.filter fun ty => !ty.isNever).map bare := by
    rw [List.filter_map]
    simp only [Function.comp_def, isNever_bare]
  rw [keptMembers, keptMembers, inhabited, List.filter_map]
  simp only [Function.comp_def, isAbsorbed_bare]

theorem collapse_bare {nothing : Ty} {node : List Ty → Ty} (tys : List Ty)
    (keepsNothing : nothing.bare = nothing) (keepsNode : ∀ tys, (node tys).bare = node (tys.map bare)) :
    (collapse nothing node tys).bare = collapse nothing node (tys.map bare) := by
  match tys with
  | [] => exact keepsNothing
  | [ty] => rfl
  | a :: b :: rest => exact keepsNode (a :: b :: rest)

theorem flatMap_bare {members : Ty → List Ty} (keeps : ∀ ty : Ty, members ty.bare = (members ty).map bare)
    (tys : List Ty) : (tys.map bare).flatMap members = (tys.flatMap members).map bare := by
  rw [List.flatMap_map, List.map_flatMap]
  exact congrArg (tys.flatMap ·) (funext keeps)

theorem union_bare (tys : List Ty) : (union tys).bare = union (tys.map bare) := by
  rw [union_eq, union_eq, flatMap_bare unionMembers_bare, distinct_bare, any_isAny_bare,
    keptMembers_bare, ← collapse_bare _ rfl bare_unionOf]
  split <;> rfl

theorem intersection_bare (tys : List Ty) : (intersection tys).bare = intersection (tys.map bare) := by
  rw [intersection_eq, intersection_eq, flatMap_bare intersectionMembers_bare, distinct_bare,
    any_isAny_bare, any_isNever_bare, ← collapse_bare _ rfl bare_intersectionOf]
  split
  · rfl
  · split <;> rfl

end Constructors

section Size

mutual

theorem size_bare : (ty : Ty) → ty.bare.size = ty.size
  | primitive _ => rfl
  | literal _ => rfl
  | anyFunction => rfl
  | ref _ => rfl
  | array element => by simp only [bare, size, size_bare element]
  | tuple elements => by simp only [bare, size, sizeAll_bare elements]
  | object ⟨properties, none, _, _⟩ => by
      simp only [bare, bareIndex, size, sizeProperties_bare properties]
  | object ⟨properties, some ⟨key, value⟩, _, _⟩ => by
      simp only [bare, bareIndex, size, sizeProperties_bare properties, size_bare key,
        size_bare value]
  | record key value => by simp only [bare, size, size_bare key, size_bare value]
  | unionOf members => by simp only [bare, size, sizeAll_bare members]
  | intersectionOf members => by simp only [bare, size, sizeAll_bare members]
  | function ⟨typeParams, params, result⟩ => by
      simp only [bare, size, sizeTypeParams_bare typeParams, sizeAll_bare params, size_bare result]
  | keyof subject => by simp only [bare, size, size_bare subject]
  | predicate _ guard => by simp only [bare, size, size_bare guard]
termination_by structural ty => ty

theorem sizeAll_bare : (tys : List Ty) → sizeAll (bareAll tys) = sizeAll tys
  | [] => rfl
  | ty :: tys => by simp only [bareAll, sizeAll, size_bare ty, sizeAll_bare tys]
termination_by structural tys => tys

theorem sizeProperties_bare : (properties : List (Property Ty)) →
    sizeProperties (bareProperties properties) = sizeProperties properties
  | [] => rfl
  | ⟨_, ty, _⟩ :: properties => by
      simp only [bareProperties, sizeProperties, size_bare ty, sizeProperties_bare properties]
termination_by structural properties => properties

theorem sizeTypeParams_bare : (params : List (TypeParam Ty)) →
    sizeTypeParams (bareTypeParams params) = sizeTypeParams params
  | [] => rfl
  | ⟨_, none⟩ :: params => by
      simp only [bareTypeParams, sizeTypeParams, sizeTypeParams_bare params]
  | ⟨_, some constraint⟩ :: params => by
      simp only [bareTypeParams, sizeTypeParams, size_bare constraint, sizeTypeParams_bare params]
termination_by structural params => params

end

end Size

section Widening

/-- Widening takes marks off and nothing else: a union that is rebuilt comes out as it was. -/
theorem widenFreshness_bare {ty : Ty} (wf : ty.WellFormed) : ty.widenFreshness.bare = ty.bare := by
  induction ty using childrenInduction with
  | step ty ih =>
      have parts : ∀ c ∈ ty.children, c.widenFreshness.bare = c.bare :=
        fun c member => ih c member (wf.child member)
      have each : (ty.children.map widenFreshness).map bare = ty.children.map bare := by
        rw [List.map_map]
        exact List.map_congr_left parts
      cases ty with
      | array element =>
          rw [widenFreshness]
          split
          · exact congrArg array (parts element (.head _))
          · rfl
      | tuple elements =>
          rw [widenFreshness, widenEach_eq_map]
          split
          · rw [bare_tuple, bare_tuple]
            exact congrArg tuple each
          · rfl
      | object shape =>
          rw [widenFreshness, widenProperties_eq_map]
          split
          · have slots : (shape.properties.map fun p => { p with ty := p.ty.widenFreshness }).map
                Property.bare = shape.properties.map Property.bare := by
              rw [List.map_map]
              refine List.map_congr_left fun p member => ?_
              simp only [Function.comp_apply, Property.bare,
                parts p.ty (property_mem_children member)]
            rw [bare_object, bare_object]
            simp only [Shape.bare, slots]
          · rfl
      | unionOf members =>
          rw [widenFreshness, widenEach_eq_map]
          split
          · have members_bare : (members.map widenFreshness).map bare = members.map bare := each
            rw [union_bare, members_bare, ← union_bare, union_of_normal wf.node]
          · rfl
      | _ => rfl

end Widening

end Ty

theorem Property.declared_bare (property : Property Ty) :
    property.bare.declared = property.declared.bare := by
  unfold Property.declared
  by_cases optional : property.optional = true
  · have own : property.bare.optional = true := optional
    rw [if_pos optional, if_pos own, Ty.union_bare]
    rfl
  · have own : ¬ property.bare.optional = true := optional
    rw [if_neg optional, if_neg own]
    rfl

end StructuralTypes
