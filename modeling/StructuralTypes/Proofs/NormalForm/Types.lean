import Mathlib.Data.List.Pairwise
import StructuralTypes.Proofs.Ty.Equivalence
import StructuralTypes.Ty.Substitution
import StructuralTypes.Ty.Widen

set_option autoImplicit false

namespace StructuralTypes

namespace Ty

section Distinct

variable {kept tys : List Ty}

theorem distinctFrom_sublist : List.Sublist (distinctFrom kept tys) tys := by
  induction tys generalizing kept with
  | nil => exact List.Sublist.refl _
  | cons ty tys ih =>
      rw [distinctFrom]
      split
      · exact List.Sublist.cons _ ih
      · exact List.Sublist.cons_cons _ ih

theorem not_same_of_mem_distinctFrom {a b : Ty} (before : a ∈ kept)
    (after : b ∈ distinctFrom kept tys) : ¬ Same a b := by
  induction tys generalizing kept with
  | nil => cases after
  | cons ty tys ih =>
      rw [distinctFrom] at after
      split at after
      case isTrue => exact ih before after
      case isFalse new =>
        rcases List.mem_cons.mp after with rfl | later
        · intro equal
          exact new ((isAmong_iff _ _).mpr ⟨a, before, equal⟩)
        · exact ih (List.mem_append_left _ before) later

/-- An earlier one of the types that are kept never equals a later one. -/
theorem distinctFrom_pairwise : (distinctFrom kept tys).Pairwise fun a b => ¬ Same a b := by
  induction tys generalizing kept with
  | nil => exact .nil
  | cons ty tys ih =>
      rw [distinctFrom]
      split
      · exact ih
      · refine .cons ?_ ih
        intro b later
        exact not_same_of_mem_distinctFrom (List.mem_append_right _ (.head _)) later

theorem mem_of_mem_distinct {ty : Ty} (member : ty ∈ distinct tys) : ty ∈ tys :=
  distinctFrom_sublist.subset member

/-- Here it matters that equality is symmetric: members are compared with earlier ones only. -/
theorem distinct_apart (wf : ∀ ty ∈ tys, ty.WellFormed) : (distinct tys).Pairwise Apart := by
  refine List.Pairwise.imp_of_mem ?_ distinctFrom_pairwise
  intro a b first second different
  refine ⟨different, fun equal => different ?_⟩
  exact same_symm (wf b (mem_of_mem_distinct second)) (wf a (mem_of_mem_distinct first)) equal

end Distinct

section Constructors

theorem WellFormed.unionMembers {ty m : Ty} (wf : ty.WellFormed) (member : m ∈ ty.unionMembers) :
    m.WellFormed := by
  cases ty with
  | unionOf members => exact wf.unionMember member
  | _ =>
      cases List.mem_singleton.mp member
      exact wf

theorem WellFormed.unionMembers_flat {ty m : Ty} (wf : ty.WellFormed)
    (member : m ∈ ty.unionMembers) : m.isUnion = false := by
  cases ty with
  | unionOf members => exact wf.node.flat m member
  | _ =>
      cases List.mem_singleton.mp member
      rfl

theorem WellFormed.eq_of_same_members {ty a b : Ty} (wf : ty.WellFormed)
    (memberA : a ∈ ty.unionMembers) (memberB : b ∈ ty.unionMembers) (same : Same a b) : a = b := by
  cases ty with
  | unionOf members =>
      by_contra different
      exact (wf.node.apart.forall memberA memberB different).1 same
  | _ =>
      cases List.mem_singleton.mp memberA
      cases List.mem_singleton.mp memberB
      rfl

theorem WellFormed.intersectionMembers {ty m : Ty} (wf : ty.WellFormed)
    (member : m ∈ ty.intersectionMembers) : m.WellFormed := by
  cases ty with
  | intersectionOf members => exact wf.intersectionMember member
  | _ =>
      cases List.mem_singleton.mp member
      exact wf

theorem WellFormed.intersectionMembers_flat {ty m : Ty} (wf : ty.WellFormed)
    (member : m ∈ ty.intersectionMembers) : m.isIntersection = false := by
  cases ty with
  | intersectionOf members => exact wf.node.flat m member
  | _ =>
      cases List.mem_singleton.mp member
      rfl

/-- The members that a union keeps, of those that are distinct. -/
def keptMembers (members : List Ty) : List Ty :=
  let inhabited := members.filter fun ty => !ty.isNever
  inhabited.filter fun ty => !isAbsorbed inhabited ty

/-- A node over some types: nothing for none, and one type stands for itself. -/
def collapse (nothing : Ty) (node : List Ty → Ty) : List Ty → Ty
  | [] => nothing
  | [ty] => ty
  | tys => node tys

theorem collapse_of_several {nothing : Ty} {node : List Ty → Ty} {tys : List Ty}
    (several : 2 ≤ tys.length) : collapse nothing node tys = node tys := by
  match tys, several with
  | _ :: _ :: _, _ => rfl

theorem union_eq (tys : List Ty) :
    union tys = if (distinct (tys.flatMap unionMembers)).any isAny then any
      else collapse never unionOf (keptMembers (distinct (tys.flatMap unionMembers))) := rfl

theorem intersection_eq (tys : List Ty) :
    intersection tys = if (distinct (tys.flatMap intersectionMembers)).any isNever then never
      else if (distinct (tys.flatMap intersectionMembers)).any isAny then any
      else collapse any intersectionOf (distinct (tys.flatMap intersectionMembers)) := rfl

theorem collapse_wellFormed {nothing : Ty} {node : List Ty → Ty} {tys : List Ty}
    (wfNothing : nothing.WellFormed) (wf : ∀ ty ∈ tys, ty.WellFormed)
    (wfNode : 2 ≤ tys.length → (node tys).WellFormed) : (collapse nothing node tys).WellFormed := by
  match tys with
  | [] => exact wfNothing
  | [ty] => exact wf ty (.head _)
  | _ :: _ :: _ => exact wfNode (by simp)

theorem mem_of_mem_keptMembers {members : List Ty} {m : Ty} (member : m ∈ keptMembers members) :
    m ∈ members :=
  List.mem_of_mem_filter (List.mem_of_mem_filter member)

/-- What is left of flat members without `any` is a normal union, unless too few are left. -/
theorem keptMembers_normal {members : List Ty} (flat : ∀ m ∈ members, m.isUnion = false)
    (proper : ∀ m ∈ members, m.isAny = false) (apart : members.Pairwise Apart)
    (several : 2 ≤ (keptMembers members).length) : NormalUnion (keptMembers members) := by
  constructor
  · exact several
  · intro m member
    exact flat m (mem_of_mem_keptMembers member)
  · intro m member
    have inhabited := List.of_mem_filter (List.mem_of_mem_filter member)
    exact ⟨proper m (mem_of_mem_keptMembers member), by simpa using inhabited⟩
  · exact (apart.sublist List.filter_sublist).sublist List.filter_sublist
  · intro m member value isLiteral n other base
    have unabsorbed := List.of_mem_filter member
    cases m with
    | literal own =>
        obtain rfl : own = value := by simpa [literal?] using isLiteral
        have absorbed : isAbsorbed (members.filter fun ty => !ty.isNever) (literal own) = true :=
          List.any_eq_true.mpr ⟨n, List.mem_of_mem_filter other, by simp [base]⟩
        simp [absorbed] at unabsorbed
    | _ => cases isLiteral

theorem union_wellFormed {tys : List Ty} (wf : ∀ ty ∈ tys, ty.WellFormed) :
    (union tys).WellFormed := by
  have wfMember : ∀ m ∈ tys.flatMap unionMembers, m.WellFormed := by
    intro m member
    obtain ⟨ty, listed, inside⟩ := List.mem_flatMap.mp member
    exact (wf ty listed).unionMembers inside
  have flat : ∀ m ∈ distinct (tys.flatMap unionMembers), m.isUnion = false := by
    intro m member
    obtain ⟨ty, listed, inside⟩ := List.mem_flatMap.mp (mem_of_mem_distinct member)
    exact (wf ty listed).unionMembers_flat inside
  rw [union_eq]
  split
  case isTrue => exact .primitive .any
  case isFalse proper =>
    rw [Bool.not_eq_true, List.any_eq_false] at proper
    have wfKept : ∀ m ∈ keptMembers (distinct (tys.flatMap unionMembers)), m.WellFormed :=
      fun m member => wfMember m (mem_of_mem_distinct (mem_of_mem_keptMembers member))
    refine collapse_wellFormed (.primitive .never) wfKept fun several => .intro ?_ wfKept
    exact keptMembers_normal flat (fun m member => by simpa using proper m member)
      (distinct_apart wfMember) several

/-- Types that differ from each other and from those that are kept are all kept. -/
theorem distinctFrom_append_of_apart {kept tys rest : List Ty}
    (apart : (kept ++ tys).Pairwise Apart) :
    distinctFrom kept (tys ++ rest) = tys ++ distinctFrom (kept ++ tys) rest := by
  induction tys generalizing kept with
  | nil => rw [List.nil_append, List.append_nil, List.nil_append]
  | cons ty tys ih =>
      have new : ty.isAmong kept = false := by
        rw [Bool.eq_false_iff]
        intro among
        obtain ⟨other, before, equal⟩ := (isAmong_iff ty kept).mp among
        exact ((List.pairwise_append.mp apart).2.2 other before ty (.head _)).1 equal
      have shift : kept ++ ty :: tys = kept ++ [ty] ++ tys := by
        rw [List.append_assoc, List.singleton_append]
      rw [List.cons_append, distinctFrom, if_neg (by simp [new]), List.cons_append, shift]
      rw [shift] at apart
      rw [ih apart]

theorem distinct_of_apart {tys : List Ty} (apart : tys.Pairwise Apart) : distinct tys = tys := by
  have whole : distinctFrom [] (tys ++ []) = tys ++ distinctFrom ([] ++ tys) [] :=
    distinctFrom_append_of_apart apart
  rw [List.append_nil, distinctFrom, List.append_nil] at whole
  exact whole

theorem unionMembers_eq_self {ty : Ty} (single : ty.isUnion = false) : ty.unionMembers = [ty] := by
  cases ty with
  | unionOf => cases single
  | _ => rfl

theorem flatMap_unionMembers {tys : List Ty} (flat : ∀ ty ∈ tys, ty.isUnion = false) :
    tys.flatMap unionMembers = tys := by
  rw [List.flatMap_congr fun ty listed => unionMembers_eq_self (flat ty listed)]
  exact List.flatMap_singleton' tys

/-- Members in normal form are already what their union is made of. -/
theorem union_of_normal {members : List Ty} (normal : NormalUnion members) :
    union members = unionOf members := by
  have flat : members.flatMap unionMembers = members := flatMap_unionMembers normal.flat
  have noAny : members.any isAny = false :=
    List.any_eq_false.mpr fun m member => by simp [(normal.proper m member).1]
  have inhabited : members.filter (fun ty => !ty.isNever) = members :=
    List.filter_eq_self.mpr fun m member => by simp [(normal.proper m member).2]
  have unabsorbed : members.filter (fun ty => !isAbsorbed members ty) = members := by
    refine List.filter_eq_self.mpr fun m member => ?_
    cases m with
    | literal value =>
        have lonely : members.any (fun ty => ty.primitive? == some value.base) = false :=
          List.any_eq_false.mpr fun n other => by
            simpa using normal.unabsorbed _ member value rfl n other
        simp [isAbsorbed, lonely]
    | _ => rfl
  rw [union_eq, flat, distinct_of_apart normal.apart, noAny, keptMembers, inhabited, unabsorbed]
  exact collapse_of_several normal.several

theorem union_undefined_isUnion {members : List Ty} (normal : NormalUnion members) :
    (union [unionOf members, undefined]).isUnion = true := by
  have whole : distinct (members ++ [undefined]) = members ++ distinctFrom members [undefined] :=
    distinctFrom_append_of_apart normal.apart
  have last : ∀ ty ∈ distinctFrom members [undefined], ty = undefined :=
    fun ty member => List.mem_singleton.mp (distinctFrom_sublist.subset member)
  generalize distinctFrom members [undefined] = rest at whole last
  have noAny : (members ++ rest).any isAny = false := by
    refine List.any_eq_false.mpr fun m member => ?_
    rcases List.mem_append.mp member with old | new
    · simp [(normal.proper m old).1]
    · simp [last m new, isAny]
  have inhabited : (members ++ rest).filter (fun ty => !ty.isNever) = members ++ rest := by
    refine List.filter_eq_self.mpr fun m member => ?_
    rcases List.mem_append.mp member with old | new
    · simp [(normal.proper m old).2]
    · simp [last m new, isNever]
  have unabsorbed : members.filter (fun ty => !isAbsorbed (members ++ rest) ty) = members := by
    refine List.filter_eq_self.mpr fun m member => ?_
    cases m with
    | literal value =>
        have lonely : (members ++ rest).any (fun ty => ty.primitive? == some value.base) = false := by
          refine List.any_eq_false.mpr fun n other => ?_
          rcases List.mem_append.mp other with old | new
          · simpa using normal.unabsorbed _ member value rfl n old
          · cases value <;> simp [last n new, primitive?, Literal.base]
        simp [isAbsorbed, lonely]
    | _ => rfl
  have flat : [unionOf members, undefined].flatMap unionMembers = members ++ [undefined] := by
    rw [List.flatMap_cons, List.flatMap_singleton]
    rfl
  rw [union_eq, flat, whole, noAny, keptMembers, inhabited, List.filter_append, unabsorbed]
  match members, normal.several with
  | _ :: _ :: _, _ => rfl

/-- Adding `undefined` gives a union, unless the type is one of three special ones. -/
theorem union_undefined_single {ty : Ty} (wf : ty.WellFormed)
    (single : (union [ty, undefined]).isUnion = false) : ty = never ∨ ty = any ∨ ty = undefined := by
  cases ty with
  | primitive kind =>
      cases kind with
      | never => exact Or.inl rfl
      | any => exact Or.inr (Or.inl rfl)
      | undefined => exact Or.inr (Or.inr rfl)
      | _ => cases single
  | literal value => cases value <;> cases single
  | unionOf members =>
      rw [union_undefined_isUnion wf.node] at single
      cases single
  | _ => cases single

theorem intersection_wellFormed {tys : List Ty} (wf : ∀ ty ∈ tys, ty.WellFormed) :
    (intersection tys).WellFormed := by
  have wfMember : ∀ m ∈ tys.flatMap intersectionMembers, m.WellFormed := by
    intro m member
    obtain ⟨ty, listed, inside⟩ := List.mem_flatMap.mp member
    exact (wf ty listed).intersectionMembers inside
  have flat : ∀ m ∈ distinct (tys.flatMap intersectionMembers), m.isIntersection = false := by
    intro m member
    obtain ⟨ty, listed, inside⟩ := List.mem_flatMap.mp (mem_of_mem_distinct member)
    exact (wf ty listed).intersectionMembers_flat inside
  rw [intersection_eq]
  split
  case isTrue => exact .primitive .never
  case isFalse inhabited =>
    split
    case isTrue => exact .primitive .any
    case isFalse proper =>
      rw [Bool.not_eq_true, List.any_eq_false] at inhabited proper
      have wfKept : ∀ m ∈ distinct (tys.flatMap intersectionMembers), m.WellFormed :=
        fun m member => wfMember m (mem_of_mem_distinct member)
      refine collapse_wellFormed (.primitive .any) wfKept fun several => .intro ?_ wfKept
      refine ⟨several, flat, fun m member => ⟨?_, ?_⟩, distinct_apart wfMember⟩
      · simpa using proper m member
      · simpa using inhabited m member

theorem union_pair_wellFormed {a b : Ty} (wfA : a.WellFormed) (wfB : b.WellFormed) :
    (union [a, b]).WellFormed := by
  refine union_wellFormed fun ty listed => ?_
  rcases List.mem_cons.mp listed with rfl | last
  · exact wfA
  · cases List.mem_singleton.mp last
    exact wfB

theorem intersection_pair_wellFormed {a b : Ty} (wfA : a.WellFormed) (wfB : b.WellFormed) :
    (intersection [a, b]).WellFormed := by
  refine intersection_wellFormed fun ty listed => ?_
  rcases List.mem_cons.mp listed with rfl | last
  · exact wfA
  · cases List.mem_singleton.mp last
    exact wfB

end Constructors

section Widening

theorem widenLiterals_eq_map (tys : List Ty) : widenLiterals tys = tys.map widenLiteral := by
  induction tys with
  | nil => rfl
  | cons ty tys ih => rw [widenLiterals, ih, List.map_cons]

theorem widenEach_eq_map (tys : List Ty) : widenEach tys = tys.map widenFreshness := by
  induction tys with
  | nil => rfl
  | cons ty tys ih => rw [widenEach, ih, List.map_cons]

theorem widenProperties_eq_map (properties : List (Property Ty)) :
    widenProperties properties =
      properties.map fun p => { p with ty := p.ty.widenFreshness } := by
  induction properties with
  | nil => rfl
  | cons p ps ih => rw [widenProperties, ih, List.map_cons]

theorem widenLiteral_wellFormed {ty : Ty} (wf : ty.WellFormed) : ty.widenLiteral.WellFormed := by
  induction ty using childrenInduction with
  | step ty ih =>
      cases ty with
      | literal value => exact .primitive value.base
      | unionOf members =>
          rw [widenLiteral, widenLiterals_eq_map]
          refine union_wellFormed (List.forall_mem_map.mpr fun m member => ?_)
          exact ih m member (wf.unionMember member)
      | _ => exact wf

theorem widenFreshness_wellFormed {ty : Ty} (wf : ty.WellFormed) :
    ty.widenFreshness.WellFormed := by
  induction ty using childrenInduction with
  | step ty ih =>
      have parts : ∀ c ∈ ty.children, c.widenFreshness.WellFormed :=
        fun c member => ih c member (wf.child member)
      cases ty with
      | array element =>
          rw [widenFreshness]
          split
          · exact .array (parts element (.head _))
          · exact wf
      | tuple elements =>
          rw [widenFreshness, widenEach_eq_map]
          split
          · exact .tuple (List.forall_mem_map.mpr parts)
          · exact wf
      | object shape =>
          rw [widenFreshness, widenProperties_eq_map]
          split
          · refine .object ?_ ?_ ?_
            · rw [List.map_map]
              exact wf.node
            · refine List.forall_mem_map.mpr fun p member => ?_
              exact parts p.ty (property_mem_children member)
            · intro index found
              exact ⟨wf.indexKey found, wf.indexValue found⟩
          · exact wf
      | unionOf members =>
          rw [widenFreshness, widenEach_eq_map]
          split
          · exact union_wellFormed (List.forall_mem_map.mpr parts)
          · exact wf
      | _ => exact wf

end Widening

end Ty

theorem Property.declared_wellFormed {property : Property Ty} (wf : property.ty.WellFormed) :
    property.declared.WellFormed := by
  rw [Property.declared]
  split
  · exact Ty.union_pair_wellFormed wf (.primitive .undefined)
  · exact wf

namespace Substitution

/-- Every name is bound to a well-formed type. -/
def WellFormed (σ : Substitution) : Prop := ∀ binding ∈ σ.bindings, binding.2.WellFormed

instance (σ : Substitution) : Decidable σ.WellFormed :=
  inferInstanceAs (Decidable (∀ binding ∈ σ.bindings, binding.2.WellFormed))

namespace WellFormed

variable {σ : Substitution}

theorem get? (wf : σ.WellFormed) {name : String} {ty : Ty} (bound : σ.get? name = some ty) :
    ty.WellFormed := by
  obtain ⟨binding, found, rfl⟩ := Option.map_eq_some_iff.mp bound
  exact wf binding (List.mem_of_find?_eq_some found)

theorem insert (wf : σ.WellFormed) {name : String} {ty : Ty} (wfTy : ty.WellFormed) :
    (σ.insert name ty).WellFormed := by
  intro binding member
  rcases List.mem_cons.mp member with rfl | older
  · exact wfTy
  · exact wf binding (List.mem_of_mem_filter older)

theorem foldl_insert (wf : σ.WellFormed) {bindings : List (String × Ty)}
    (wfBindings : ∀ binding ∈ bindings, binding.2.WellFormed) :
    (bindings.foldl (fun σ binding => σ.insert binding.1 binding.2) σ).WellFormed := by
  induction bindings generalizing σ with
  | nil => exact wf
  | cons binding bindings ih =>
      exact ih (wf.insert (wfBindings binding (.head _)))
        fun other later => wfBindings other (.tail _ later)

theorem ofList {bindings : List (String × Ty)}
    (wfBindings : ∀ binding ∈ bindings, binding.2.WellFormed) :
    (Substitution.ofList bindings).WellFormed := by
  have wfEmpty : ({} : Substitution).WellFormed := by
    intro binding member
    cases member
  exact wfEmpty.foldl_insert wfBindings

theorem pair {params : List (TypeParam Ty)} {args : List Ty} (wf : ∀ arg ∈ args, arg.WellFormed) :
    ∀ binding ∈ ofArgs.pair params args, binding.2.WellFormed := by
  induction params generalizing args with
  | nil => exact fun _ member => nomatch member
  | cons param params ih =>
      cases args with
      | nil =>
          refine List.forall_mem_cons.mpr ⟨.primitive .any, ih ?_⟩
          exact fun _ member => nomatch member
      | cons arg args =>
          refine List.forall_mem_cons.mpr ⟨wf arg (.head _), ih ?_⟩
          exact fun other later => wf other (.tail _ later)

theorem ofArgs {params : List (TypeParam Ty)} {args : List Ty}
    (wf : ∀ arg ∈ args, arg.WellFormed) : (Substitution.ofArgs params args).WellFormed :=
  ofList (pair wf)

end WellFormed

end Substitution

namespace Ty

variable {σ : Substitution}

theorem replaceAll_eq_map (tys : List Ty) : replaceAll σ tys = tys.map (replace σ) := by
  induction tys with
  | nil => rfl
  | cons ty tys ih => rw [replaceAll, ih, List.map_cons]

theorem replaceProperties_eq_map (properties : List (Property Ty)) :
    replaceProperties σ properties = properties.map fun p => { p with ty := p.ty.replace σ } := by
  induction properties with
  | nil => rfl
  | cons p ps ih => rw [replaceProperties, ih, List.map_cons]

theorem replaceIndex_eq_map (index : Option (IndexSignature Ty)) :
    replaceIndex σ index = index.map fun i => ⟨i.key.replace σ, i.value.replace σ⟩ := by
  cases index <;> rfl

/-- A constraint that is left after substitution was a constraint before. -/
theorem exists_of_mem_replaceTypeParams {params : List (TypeParam Ty)} {param : TypeParam Ty}
    (member : param ∈ replaceTypeParams σ params) {constraint : Ty}
    (bound : param.constraint = some constraint) :
    ∃ own ∈ params, ∃ c, own.constraint = some c ∧ constraint = c.replace σ := by
  induction params with
  | nil => cases member
  | cons first rest ih =>
      have later (found : param ∈ replaceTypeParams σ rest) :
          ∃ own ∈ first :: rest, ∃ c, own.constraint = some c ∧ constraint = c.replace σ := by
        obtain ⟨own, declared, c, known, equal⟩ := ih found
        exact ⟨own, .tail _ declared, c, known, equal⟩
      obtain ⟨name, _ | c⟩ := first <;> rw [replaceTypeParams] at member <;> split at member
      · exact later member
      · rcases List.mem_cons.mp member with rfl | found
        · cases bound
        · exact later found
      · exact later member
      · rcases List.mem_cons.mp member with rfl | found
        · cases bound
          exact ⟨_, .head _, c, rfl, rfl⟩
        · exact later found

theorem replace_wellFormed (wfσ : σ.WellFormed) {ty : Ty} (wf : ty.WellFormed) :
    (ty.replace σ).WellFormed := by
  induction ty using childrenInduction with
  | step ty ih =>
      have parts : ∀ c ∈ ty.children, (c.replace σ).WellFormed :=
        fun c member => ih c member (wf.child member)
      cases ty with
      | primitive kind => exact .primitive kind
      | literal value => exact .literal value
      | anyFunction => exact .anyFunction
      | ref name =>
          rw [replace]
          cases bound : σ.get? name with
          | none => exact .ref name
          | some ty => exact wfσ.get? bound
      | array element => exact .array (parts element (.head _))
      | tuple elements =>
          rw [replace, replaceAll_eq_map]
          exact .tuple (List.forall_mem_map.mpr parts)
      | object shape =>
          rw [replace, replaceProperties_eq_map, replaceIndex_eq_map]
          refine .object ?_ ?_ ?_
          · rw [List.map_map]
            exact wf.node
          · refine List.forall_mem_map.mpr fun p member => ?_
            exact parts p.ty (property_mem_children member)
          · intro index found
            obtain ⟨own, declared, rfl⟩ := Option.map_eq_some_iff.mp found
            exact ⟨parts _ (indexKey_mem_children declared),
              parts _ (indexValue_mem_children declared)⟩
      | record key value => exact .record (parts key (.head _)) (parts value (.tail _ (.head _)))
      | unionOf members =>
          rw [replace, replaceAll_eq_map]
          exact union_wellFormed (List.forall_mem_map.mpr parts)
      | intersectionOf members =>
          rw [replace, replaceAll_eq_map]
          exact intersection_wellFormed (List.forall_mem_map.mpr parts)
      | function signature =>
          rw [replace, replaceAll_eq_map]
          refine .function ?_ ?_ (parts _ (result_mem_children signature))
          · intro param member c bound
            obtain ⟨own, declared, constraint, known, rfl⟩ :=
              exists_of_mem_replaceTypeParams member bound
            exact parts _ (constraint_mem_children declared known)
          · exact List.forall_mem_map.mpr fun param member => parts _ (param_mem_children member)
      | keyof subject => exact .keyof (parts subject (.head _))
      | predicate parameter guard => exact .predicate (parts guard (.head _))

theorem substitute_wellFormed (wfσ : σ.WellFormed) {ty : Ty} (wf : ty.WellFormed) :
    (ty.substitute σ).WellFormed := by
  rw [substitute]
  split
  · exact wf
  · exact replace_wellFormed wfσ wf

end Ty

end StructuralTypes
