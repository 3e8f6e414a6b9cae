import StructuralTypes.Proofs.Freshness.Types

set_option autoImplicit false

namespace StructuralTypes.Ty

/-- The parts of a type in which a fresh literal is looked for. -/
def valueParts : Ty → List Ty
  | object shape => shape.properties.map (·.ty)
  | array element => [element]
  | tuple elements => elements
  | unionOf members => members
  | _ => []

/-- One type is found in another through properties, arrays, tuples and unions. -/
inductive Exposes : Ty → Ty → Prop
  | here (ty : Ty) : Exposes ty ty
  | part {ty part inner : Ty} (direct : part ∈ ty.valueParts) (inside : Exposes part inner) :
    Exposes ty inner

/-- The second type is the first one, except that some literals that are found through properties,
arrays, tuples and unions are no longer marked as fresh. -/
inductive Unmarks : Ty → Ty → Prop
  | refl (ty : Ty) : Unmarks ty ty
  | array {element element' : Ty} (inside : Unmarks element element') :
    Unmarks (.array element) (.array element')
  | tuple {elements : List Ty} {unmark : Ty → Ty}
    (inside : ∀ e ∈ elements, Unmarks e (unmark e)) :
    Unmarks (.tuple elements) (.tuple (elements.map unmark))
  | union {members : List Ty} {unmark : Ty → Ty} (inside : ∀ m ∈ members, Unmarks m (unmark m)) :
    Unmarks (.unionOf members) (.unionOf (members.map unmark))
  | object {shape : Shape Ty} {unmark : Ty → Ty}
    (inside : ∀ p ∈ shape.properties, Unmarks p.ty (unmark p.ty)) :
    Unmarks (.object shape) (.object { shape with
      properties := shape.properties.map fun p => { p with ty := unmark p.ty }
      fresh := false })

section Search

theorem anyContainsFresh_eq_any (tys : List Ty) : anyContainsFresh tys = tys.any containsFresh := by
  induction tys with
  | nil => rfl
  | cons ty tys ih => rw [anyContainsFresh, ih, List.any_cons]

theorem propertiesContainFresh_eq_any (properties : List (Property Ty)) :
    propertiesContainFresh properties = (properties.map (·.ty)).any containsFresh := by
  induction properties with
  | nil => rfl
  | cons p ps ih => rw [propertiesContainFresh, ih, List.map_cons, List.any_cons]

theorem containsFresh_eq (ty : Ty) :
    ty.containsFresh = (ty.isFreshLiteral || ty.valueParts.any containsFresh) := by
  cases ty with
  | object shape => rw [containsFresh, propertiesContainFresh_eq_any, isFreshLiteral, valueParts]
  | array element => simp [containsFresh, isFreshLiteral, valueParts]
  | tuple elements =>
      rw [containsFresh, anyContainsFresh_eq_any, isFreshLiteral, Bool.false_or, valueParts]
      exact fun _ => Ty.noConfusion
  | unionOf members =>
      rw [containsFresh, anyContainsFresh_eq_any, isFreshLiteral, Bool.false_or, valueParts]
      exact fun _ => Ty.noConfusion
  | _ => rfl

theorem valueParts_subset_children {ty part : Ty} (direct : part ∈ ty.valueParts) :
    part ∈ ty.children := by
  cases ty with
  | object shape => exact List.mem_append_left _ direct
  | array element => exact direct
  | tuple elements => exact direct
  | unionOf members => exact direct
  | _ => cases direct

/-- The search finds a mark exactly if one is within reach. -/
theorem containsFresh_iff {ty : Ty} :
    ty.containsFresh = true ↔ ∃ inner, ty.Exposes inner ∧ inner.isFreshLiteral = true := by
  induction ty using childrenInduction with
  | step ty ih =>
      rw [containsFresh_eq, Bool.or_eq_true, List.any_eq_true]
      constructor
      · rintro (fresh | ⟨part, direct, found⟩)
        · exact ⟨ty, .here ty, fresh⟩
        · obtain ⟨inner, inside, fresh⟩ := (ih part (valueParts_subset_children direct)).mp found
          exact ⟨inner, .part direct inside, fresh⟩
      · rintro ⟨inner, reached, fresh⟩
        cases reached with
        | here => exact Or.inl fresh
        | @part _ part _ direct inside =>
            have found := (ih part (valueParts_subset_children direct)).mpr ⟨inner, inside, fresh⟩
            exact Or.inr ⟨part, direct, found⟩

theorem containsFresh_eq_false_iff {ty : Ty} :
    ty.containsFresh = false ↔ ∀ inner, ty.Exposes inner → inner.isFreshLiteral = false := by
  rw [← Bool.not_eq_true, containsFresh_iff]
  simp only [not_exists, not_and, Bool.not_eq_true]

end Search

section Rewriting

/-- Where no mark is within reach, nothing changes. -/
theorem widenFreshness_eq_self {ty : Ty} (plain : ty.containsFresh = false) :
    ty.widenFreshness = ty := by
  cases ty with
  | object | array | tuple | unionOf =>
      rw [containsFresh] at plain
      rw [widenFreshness, plain, if_neg Bool.false_ne_true]
  | _ => rfl

theorem map_widenFreshness_eq_self {tys : List Ty} (plain : ¬ anyContainsFresh tys = true) :
    tys.map widenFreshness = tys := by
  rw [anyContainsFresh_eq_any, List.any_eq_true, not_exists] at plain
  refine (List.map_congr_left fun ty member => ?_).trans (List.map_id tys)
  exact widenFreshness_eq_self (Bool.eq_false_iff.mpr fun fresh => plain ty ⟨member, fresh⟩)

/-- To look for marks first makes no difference. -/
theorem widenFreshness_array (element : Ty) :
    (array element).widenFreshness = array element.widenFreshness := by
  rw [widenFreshness]
  split
  case isTrue => rfl
  case isFalse plain => rw [widenFreshness_eq_self (Bool.eq_false_iff.mpr plain)]

theorem widenFreshness_tuple (elements : List Ty) :
    (tuple elements).widenFreshness = tuple (elements.map widenFreshness) := by
  rw [widenFreshness, widenEach_eq_map]
  split
  case isTrue => rfl
  case isFalse plain => rw [map_widenFreshness_eq_self plain]

theorem widenFreshness_object (shape : Shape Ty) :
    (object shape).widenFreshness = object { shape with
      properties := shape.properties.map fun p => { p with ty := p.ty.widenFreshness }
      fresh := false } := by
  rw [widenFreshness, widenProperties_eq_map]
  split
  case isTrue => rfl
  case isFalse plain =>
    rw [Bool.or_eq_true, not_or, propertiesContainFresh_eq_any, List.any_eq_true, not_exists] at plain
    obtain ⟨unmarked, plain⟩ := plain
    have properties : (shape.properties.map fun p =>
        { p with ty := p.ty.widenFreshness }) = shape.properties := by
      refine (List.map_congr_left fun p member => ?_).trans (List.map_id shape.properties)
      have still : p.ty.widenFreshness = p.ty := widenFreshness_eq_self
        (Bool.eq_false_iff.mpr fun fresh => plain p.ty ⟨List.mem_map_of_mem member, fresh⟩)
      rw [still, id]
    rw [properties, ← Bool.eq_false_iff.mpr unmarked]

theorem apart_bare (a b : Ty) : Apart a.bare b.bare ↔ Apart a b := by
  rw [Apart, Apart, Same, Same, same_bare, same_bare]

theorem literal?_bare (ty : Ty) : ty.bare.literal? = ty.literal? := by
  cases ty <;> rfl

/-- Normal form does not hang on marks. -/
theorem normalUnion_bare {members : List Ty} :
    NormalUnion (members.map bare) ↔ NormalUnion members := by
  constructor
  · rintro ⟨several, flat, proper, apart, unabsorbed⟩
    simp only [List.length_map, List.forall_mem_map, isUnion_bare, isAny_bare, isNever_bare,
      List.pairwise_map, apart_bare, literal?_bare, primitive?_bare]
      at several flat proper apart unabsorbed
    exact ⟨several, flat, proper, apart, unabsorbed⟩
  · rintro ⟨several, flat, proper, apart, unabsorbed⟩
    constructor <;> simp only [List.length_map, List.forall_mem_map, isUnion_bare, isAny_bare,
      isNever_bare, List.pairwise_map, apart_bare, literal?_bare, primitive?_bare]
    · exact several
    · exact flat
    · exact proper
    · exact apart
    · exact unabsorbed

/-- A union that is rebuilt keeps its members and their order. -/
theorem widenFreshness_unionOf {members : List Ty} (wf : (unionOf members).WellFormed) :
    (unionOf members).widenFreshness = unionOf (members.map widenFreshness) := by
  have bare_members : (members.map widenFreshness).map bare = members.map bare := by
    rw [List.map_map]
    exact List.map_congr_left fun m member => widenFreshness_bare (wf.unionMember member)
  have normal : NormalUnion (members.map widenFreshness) := by
    rw [← normalUnion_bare, bare_members, normalUnion_bare]
    exact wf.node
  rw [widenFreshness, widenEach_eq_map]
  split
  case isTrue => exact union_of_normal normal
  case isFalse plain => rw [map_widenFreshness_eq_self plain]

/-- Widening works on the parts in which marks are looked for. -/
theorem valueParts_widenFreshness {ty : Ty} (wf : ty.WellFormed) :
    ty.widenFreshness.valueParts = ty.valueParts.map widenFreshness := by
  cases ty with
  | object shape =>
      rw [widenFreshness_object]
      simp only [valueParts, List.map_map, Function.comp_def]
  | array element =>
      rw [widenFreshness_array]
      rfl
  | tuple elements => rw [widenFreshness_tuple, valueParts, valueParts]
  | unionOf members => rw [widenFreshness_unionOf wf, valueParts, valueParts]
  | _ => rfl

theorem isFreshLiteral_widenFreshness {ty : Ty} (wf : ty.WellFormed) :
    ty.widenFreshness.isFreshLiteral = false := by
  cases ty with
  | object shape =>
      rw [widenFreshness_object]
      rfl
  | array element =>
      rw [widenFreshness_array]
      rfl
  | tuple elements =>
      rw [widenFreshness_tuple]
      rfl
  | unionOf members =>
      rw [widenFreshness_unionOf wf]
      rfl
  | _ => rfl

theorem containsFresh_widenFreshness {ty : Ty} (wf : ty.WellFormed) :
    ty.widenFreshness.containsFresh = false := by
  induction ty using childrenInduction with
  | step ty ih =>
      rw [containsFresh_eq, isFreshLiteral_widenFreshness wf, Bool.false_or,
        valueParts_widenFreshness wf, List.any_map, List.any_eq_false]
      intro part direct
      have inside := valueParts_subset_children direct
      exact Bool.eq_false_iff.mp (ih part inside (wf.child inside))

theorem unmarks_widenFreshness {ty : Ty} (wf : ty.WellFormed) : ty.Unmarks ty.widenFreshness := by
  induction ty using childrenInduction with
  | step ty ih =>
      have parts : ∀ c ∈ ty.children, c.Unmarks c.widenFreshness := fun c member =>
        ih c member (wf.child member)
      cases ty with
      | object shape =>
          rw [widenFreshness_object]
          exact .object fun p member => parts p.ty (property_mem_children member)
      | array element =>
          rw [widenFreshness_array]
          exact .array (parts element (.head _))
      | tuple elements =>
          rw [widenFreshness_tuple]
          exact .tuple parts
      | unionOf members =>
          rw [widenFreshness_unionOf wf]
          exact .union parts
      | _ => exact .refl _

end Rewriting

/-- Widening takes off every mark within reach and changes nothing else: not even a mark elsewhere, a
name or an order. So what comes out equals what went in, is the same where no mark was within reach,
and is not changed by widening it again. -/
theorem widenFreshness_unmarks {ty : Ty} (wf : ty.WellFormed) :
    (∀ inner, ty.widenFreshness.Exposes inner → inner.isFreshLiteral = false) ∧
      ty.Unmarks ty.widenFreshness ∧ Same ty.widenFreshness ty ∧
      ((∀ inner, ty.Exposes inner → inner.isFreshLiteral = false) → ty.widenFreshness = ty) ∧
      ty.widenFreshness.widenFreshness = ty.widenFreshness := by
  have unmarked := containsFresh_widenFreshness wf
  have equal : Same ty.widenFreshness ty := by
    rw [Same, ← same_bare, widenFreshness_bare wf]
    exact same_self ty.bare
  refine ⟨containsFresh_eq_false_iff.mp unmarked, unmarks_widenFreshness wf, equal, ?_,
    widenFreshness_eq_self unmarked⟩
  intro plain
  exact widenFreshness_eq_self (containsFresh_eq_false_iff.mpr plain)

/-- A list of users that are written in place, each with settings that are written in place too. -/
def freshUsers : Ty :=
  .array (.unionOf [.object
    { properties := [⟨"name", .string, false⟩,
        ⟨"settings", .object { properties := [⟨"dark", .boolean, true⟩], fresh := true }, false⟩]
      fresh := true }, .null])

theorem freshUsers_unmarked : (freshUsers.WellFormed ∧ freshUsers.containsFresh = true) ∧
    (∀ inner, freshUsers.widenFreshness.Exposes inner → inner.isFreshLiteral = false) ∧
      freshUsers.Unmarks freshUsers.widenFreshness ∧ Same freshUsers.widenFreshness freshUsers ∧
      freshUsers.widenFreshness.widenFreshness = freshUsers.widenFreshness := by
  have wf : freshUsers.WellFormed := by decide +kernel
  obtain ⟨unmarked, unmarks, equal, _, again⟩ := widenFreshness_unmarks wf
  exact ⟨⟨wf, rfl⟩, unmarked, unmarks, equal, again⟩

end StructuralTypes.Ty
