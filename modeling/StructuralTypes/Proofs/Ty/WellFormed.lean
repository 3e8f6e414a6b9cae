import StructuralTypes.Proofs.Ty.Equality

set_option autoImplicit false

namespace StructuralTypes.Ty

/-- Neither of two types equals the other. -/
def Apart (a b : Ty) : Prop := ¬ Same a b ∧ ¬ Same b a

instance : Std.Symm Apart where
  symm _ _ both := ⟨both.2, both.1⟩

instance (a b : Ty) : Decidable (Apart a b) := inferInstanceAs (Decidable (¬ _ ∧ ¬ _))

/-- The members of a union in normal form. -/
structure NormalUnion (members : List Ty) : Prop where
  several : 2 ≤ members.length
  flat : ∀ m ∈ members, m.isUnion = false
  proper : ∀ m ∈ members, m.isAny = false ∧ m.isNever = false
  apart : members.Pairwise Apart
  /-- No literal stands next to its keyword type. -/
  unabsorbed : ∀ m ∈ members, ∀ value ∈ m.literal?, ∀ n ∈ members, n.primitive? ≠ some value.base

/-- The members of an intersection in normal form. -/
structure NormalIntersection (members : List Ty) : Prop where
  several : 2 ≤ members.length
  flat : ∀ m ∈ members, m.isIntersection = false
  proper : ∀ m ∈ members, m.isAny = false ∧ m.isNever = false
  apart : members.Pairwise Apart

/-- The outermost node of a type is in normal form. -/
def NormalNode : Ty → Prop
  | unionOf members => NormalUnion members
  | intersectionOf members => NormalIntersection members
  | object shape => (shape.properties.map (·.name)).Nodup
  | _ => True

/-- All nodes of a type are in normal form. -/
inductive WellFormed : Ty → Prop
  | intro {ty : Ty} (node : ty.NormalNode) (parts : ∀ child ∈ ty.children, child.WellFormed) :
    WellFormed ty

namespace WellFormed

variable {ty : Ty}

theorem node (wf : ty.WellFormed) : ty.NormalNode := by
  cases wf with
  | intro node parts => exact node

theorem child (wf : ty.WellFormed) {child : Ty} (member : child ∈ ty.children) :
    child.WellFormed := by
  cases wf with
  | intro node parts => exact parts child member

theorem leaf (ty : Ty) (bare : ty.children = []) (node : ty.NormalNode) : ty.WellFormed := by
  refine .intro node ?_
  rw [bare]
  intro child member
  cases member

theorem primitive (kind : Primitive) : (Ty.primitive kind).WellFormed := leaf _ rfl trivial

theorem literal (value : Literal) : (Ty.literal value).WellFormed := leaf _ rfl trivial

theorem ref (name : String) : (Ty.ref name).WellFormed := leaf _ rfl trivial

theorem anyFunction : Ty.anyFunction.WellFormed := leaf _ rfl trivial

theorem unionMember {members : List Ty} (wf : (unionOf members).WellFormed) {m : Ty}
    (member : m ∈ members) : m.WellFormed := wf.child member

theorem intersectionMember {members : List Ty} (wf : (intersectionOf members).WellFormed) {m : Ty}
    (member : m ∈ members) : m.WellFormed := wf.child member

theorem property {shape : Shape Ty} (wf : (object shape).WellFormed) {p : Property Ty}
    (member : p ∈ shape.properties) : p.ty.WellFormed := wf.child (property_mem_children member)

theorem indexKey {shape : Shape Ty} (wf : (object shape).WellFormed) {index : IndexSignature Ty}
    (found : shape.index = some index) : index.key.WellFormed :=
  wf.child (indexKey_mem_children found)

theorem indexValue {shape : Shape Ty} (wf : (object shape).WellFormed) {index : IndexSignature Ty}
    (found : shape.index = some index) : index.value.WellFormed :=
  wf.child (indexValue_mem_children found)

theorem recordKey {key value : Ty} (wf : (record key value).WellFormed) : key.WellFormed :=
  wf.child (List.mem_cons_self)

theorem recordValue {key value : Ty} (wf : (record key value).WellFormed) : value.WellFormed :=
  wf.child (List.mem_cons_of_mem _ List.mem_cons_self)

theorem array {element : Ty} (wf : element.WellFormed) : (Ty.array element).WellFormed := by
  refine .intro trivial fun child member => ?_
  cases List.mem_singleton.mp member
  exact wf

theorem tuple {elements : List Ty} (wf : ∀ e ∈ elements, e.WellFormed) :
    (Ty.tuple elements).WellFormed := .intro trivial wf

theorem record {key value : Ty} (wfKey : key.WellFormed) (wfValue : value.WellFormed) :
    (Ty.record key value).WellFormed := by
  refine .intro trivial fun child member => ?_
  rcases List.mem_cons.mp member with rfl | last
  · exact wfKey
  · cases List.mem_singleton.mp last
    exact wfValue

theorem function {signature : Signature Ty}
    (constraints : ∀ param ∈ signature.typeParams, ∀ c ∈ param.constraint, c.WellFormed)
    (params : ∀ param ∈ signature.params, param.WellFormed) (result : signature.result.WellFormed) :
    (Ty.function signature).WellFormed := by
  refine .intro trivial fun child member => ?_
  rcases List.mem_append.mp member with front | last
  · rcases List.mem_append.mp front with bound | param
    · obtain ⟨param, declared, found⟩ := List.mem_filterMap.mp bound
      exact constraints param declared child found
    · exact params child param
  · cases List.mem_singleton.mp last
    exact result

theorem keyof {subject : Ty} (wf : subject.WellFormed) :
    (Ty.keyof subject).WellFormed := by
  refine .intro trivial fun child member => ?_
  cases List.mem_singleton.mp member
  exact wf

theorem predicate {parameter : String} {guard : Ty} (wf : guard.WellFormed) :
    (Ty.predicate parameter guard).WellFormed := by
  refine .intro trivial fun child member => ?_
  cases List.mem_singleton.mp member
  exact wf

/-- A shape is well formed when its names are distinct and its parts are well formed. -/
theorem object {shape : Shape Ty} (names : (shape.properties.map (·.name)).Nodup)
    (properties : ∀ p ∈ shape.properties, p.ty.WellFormed)
    (index : ∀ i, shape.index = some i → i.key.WellFormed ∧ i.value.WellFormed) :
    (Ty.object shape).WellFormed :=
  .intro names (forall_mem_children_object properties index)

theorem asShape {shape : Shape Ty} (wf : ty.WellFormed) (found : ty.asShape? = some shape) :
    (Ty.object shape).WellFormed := by
  cases ty with
  | object own =>
      cases found
      exact wf
  | record key value =>
      cases found
      refine .object List.nodup_nil (fun p member => by cases member) ?_
      rintro i ⟨⟩
      exact ⟨wf.recordKey, wf.recordValue⟩
  | _ => cases found

end WellFormed

section Decision

instance (members : List Ty) : Decidable (NormalUnion members) :=
  decidable_of_iff
    (2 ≤ members.length ∧ (∀ m ∈ members, m.isUnion = false) ∧
      (∀ m ∈ members, m.isAny = false ∧ m.isNever = false) ∧ members.Pairwise Apart ∧
      ∀ m ∈ members, ∀ value ∈ m.literal?, ∀ n ∈ members, n.primitive? ≠ some value.base)
    ⟨fun ⟨several, flat, proper, apart, unabsorbed⟩ => ⟨several, flat, proper, apart, unabsorbed⟩,
      fun normal => ⟨normal.several, normal.flat, normal.proper, normal.apart, normal.unabsorbed⟩⟩

instance (members : List Ty) : Decidable (NormalIntersection members) :=
  decidable_of_iff
    (2 ≤ members.length ∧ (∀ m ∈ members, m.isIntersection = false) ∧
      (∀ m ∈ members, m.isAny = false ∧ m.isNever = false) ∧ members.Pairwise Apart)
    ⟨fun ⟨several, flat, proper, apart⟩ => ⟨several, flat, proper, apart⟩,
      fun normal => ⟨normal.several, normal.flat, normal.proper, normal.apart⟩⟩

instance (ty : Ty) : Decidable ty.NormalNode :=
  match ty with
  | unionOf members => inferInstanceAs (Decidable (NormalUnion members))
  | intersectionOf members => inferInstanceAs (Decidable (NormalIntersection members))
  | object shape => inferInstanceAs (Decidable (shape.properties.map (·.name)).Nodup)
  | primitive _ | literal _ | array _ | tuple _ | record _ _ | anyFunction | function _ | ref _
  | keyof _ | predicate _ _ => inferInstanceAs (Decidable True)

/-- All nodes within the given number of levels are in normal form. -/
def normalWithin : Nat → Ty → Bool
  | 0, _ => false
  | levels + 1, ty => decide ty.NormalNode && ty.children.all (normalWithin levels)

theorem wellFormed_of_normalWithin {levels : Nat} {ty : Ty} (normal : normalWithin levels ty = true) :
    ty.WellFormed := by
  induction levels generalizing ty with
  | zero => cases normal
  | succ levels ih =>
      simp only [normalWithin, Bool.and_eq_true, decide_eq_true_eq, List.all_eq_true] at normal
      exact .intro normal.1 fun child member => ih (normal.2 child member)

theorem normalWithin_of_wellFormed {levels : Nat} {ty : Ty} (wf : ty.WellFormed)
    (deep : ty.size ≤ levels) : normalWithin levels ty = true := by
  induction levels generalizing ty with
  | zero =>
      have positive := ty.size_pos
      omega
  | succ levels ih =>
      simp only [normalWithin, Bool.and_eq_true, decide_eq_true_eq, List.all_eq_true]
      refine ⟨wf.node, fun child member => ih (wf.child member) ?_⟩
      have smaller := size_child_lt member
      omega

instance (ty : Ty) : Decidable ty.WellFormed :=
  decidable_of_iff (normalWithin ty.size ty = true)
    ⟨wellFormed_of_normalWithin, fun wf => normalWithin_of_wellFormed wf (Nat.le_refl _)⟩

end Decision

end StructuralTypes.Ty
