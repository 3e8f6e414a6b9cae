import StructuralTypes.Proofs.Ty.Names
import StructuralTypes.Proofs.Ty.Regrouping

/-!
Between two substitutions, unions and intersections are brought into normal form. What that leaves out
of a union the second substitution cannot bring back: it keeps `never`, literals and keyword types,
and equal types stay equal. An intersection also drops what stands beside `any`, which may turn into
`never` later, so the first substitution must not put `any` there.
-/

set_option autoImplicit false

namespace StructuralTypes

namespace Ty

variable {σ τ ρ : Substitution} {a b ty : Ty} {tys : List Ty}

section Nodes

theorem replaceTypeParams_eq_map (params : List (TypeParam Ty)) :
    replaceTypeParams σ params = (params.filter fun p => !σ.contains p.name).map
      fun p => ⟨p.name, p.constraint.map (replace σ)⟩ := by
  induction params with
  | nil => rfl
  | cons p ps ih =>
      obtain ⟨name, _ | constraint⟩ := p <;> rw [replaceTypeParams, ih] <;>
        by_cases bound : σ.contains name = true <;> simp [bound]

theorem union_singleton (wf : a.WellFormed) : union [a] = a := by
  cases a with
  | primitive kind => cases kind <;> rfl
  | unionOf members =>
      have flat : [unionOf members].flatMap unionMembers = members.flatMap unionMembers := by
        rw [flatMap_unionMembers wf.node.flat]
        exact List.flatMap_singleton _ _
      have whole : union [unionOf members] = union members := by rw [union_eq, union_eq, flat]
      rw [whole, union_of_normal wf.node]
  | _ => rfl

/-- Substitution works on the members of a union one by one, also if there is just one. -/
theorem replace_eq_union (wfσ : σ.WellFormed) (wf : ty.WellFormed) :
    ty.replace σ = union (ty.unionMembers.map (replace σ)) := by
  by_cases several : ty.isUnion = true
  · cases ty with
    | unionOf members => rw [replace, replaceAll_eq_map, unionMembers]
    | _ => cases several
  · rw [unionMembers_eq_self (by simpa using several), List.map_singleton,
      union_singleton (replace_wellFormed wfσ wf)]

theorem intersection_of_normal {members : List Ty} (wf : (intersectionOf members).WellFormed) :
    intersection members = intersectionOf members := by
  have flat : members.flatMap intersectionMembers =
      [intersectionOf members].flatMap intersectionMembers := by
    rw [List.flatMap_congr fun m listed => intersectionMembers_eq_self (wf.node.flat m listed),
      List.flatMap_singleton', List.flatMap_singleton, intersectionMembers]
  have whole : intersection members = intersection [intersectionOf members] := by
    rw [intersection_eq, intersection_eq, flat]
  rw [whole, intersection_singleton_eq wf]

theorem replace_eq_intersection (wfσ : σ.WellFormed) (wf : ty.WellFormed) :
    ty.replace σ = intersection (ty.intersectionMembers.map (replace σ)) := by
  by_cases several : ty.isIntersection = true
  · cases ty with
    | intersectionOf members => rw [replace, replaceAll_eq_map, intersectionMembers]
    | _ => cases several
  · rw [intersectionMembers_eq_self (by simpa using several), List.map_singleton,
      intersection_singleton_eq (replace_wellFormed wfσ wf)]

end Nodes

section Equality

variable (wfσ : σ.WellFormed)

theorem forall₂_map_of_mem {α β : Type} {related : α → α → Prop} {become : β → β → Prop}
    {f : α → β} {as bs : List α}
    (carry : ∀ a ∈ as, ∀ b ∈ bs, related a b → become (f a) (f b))
    (each : List.Forall₂ related as bs) : List.Forall₂ become (as.map f) (bs.map f) := by
  induction each with
  | nil => exact .nil
  | cons first rest ih =>
      refine .cons (carry _ (.head _) _ (.head _) first) (ih ?_)
      exact fun a memberA b memberB => carry a (.tail _ memberA) b (.tail _ memberB)

theorem forall₂_filter_names (keep : String → Bool) {related : TypeParam Ty → TypeParam Ty → Prop}
    (names : ∀ t u, related t u → t.name = u.name) {ts us : List (TypeParam Ty)}
    (each : List.Forall₂ related ts us) :
    List.Forall₂ related (ts.filter fun t => keep t.name) (us.filter fun u => keep u.name) := by
  refine List.rel_filter ?_ each
  intro t u both
  simp [names t u both]

theorem rel_map_of_mem {α β : Type} {related : α → α → Prop} {become : β → β → Prop} {f : α → β}
    {i j : Option α} (carry : ∀ a ∈ i, ∀ b ∈ j, related a b → become (f a) (f b))
    (both : Option.Rel related i j) : Option.Rel become (i.map f) (j.map f) := by
  cases both with
  | some pair => exact .some (carry _ rfl _ rfl pair)
  | none => exact .none

theorem SameSet.map {f : Ty → Ty} {as bs : List Ty} (set : SameSet as bs)
    (carry : ∀ a ∈ as, ∀ b ∈ bs, Same a b → Same (f a) (f b)) :
    SameSet (as.map f) (bs.map f) := by
  constructor
  · refine List.forall_mem_map.mpr fun a memberA => ?_
    obtain ⟨b, memberB, equal⟩ := set.forth a memberA
    exact ⟨f b, List.mem_map_of_mem memberB, carry a memberA b memberB equal⟩
  · refine List.forall_mem_map.mpr fun b memberB => ?_
    obtain ⟨a, memberA, equal⟩ := set.back b memberB
    exact ⟨f a, List.mem_map_of_mem memberA, carry a memberA b memberB equal⟩

include wfσ

theorem replaced (wf : ∀ ty ∈ tys, ty.WellFormed) : ∀ ty ∈ tys.map (replace σ), ty.WellFormed :=
  List.forall_mem_map.mpr fun ty listed => replace_wellFormed wfσ (wf ty listed)

/-- Substitution keeps equal types equal. -/
theorem replace_same (wfA : a.WellFormed) (wfB : b.WellFormed) (equal : Same a b) :
    Same (a.replace σ) (b.replace σ) := by
  induction a using childrenInduction generalizing b with
  | step a ih =>
      have parts (c : Ty) (memberC : c ∈ a.children) (d : Ty) (memberD : d ∈ b.children)
          (same : Same c d) : EqualParts (c.replace σ) (d.replace σ) :=
        ⟨replace_wellFormed wfσ (wfA.child memberC), replace_wellFormed wfσ (wfB.child memberD),
          ih c memberC (wfA.child memberC) (wfB.child memberD) same⟩
      cases sameNode_of_same equal with
      | primitive | literal | anyFunction => exact equal
      | ref name => exact same_self _
      | array element => exact (parts _ (.head _) _ (.head _) element).same
      | tuple elements =>
          rw [replace, replace, replaceAll_eq_map, replaceAll_eq_map]
          exact same_of_rebuilt (.tuple (forall₂_map_of_mem parts elements))
      | object counts properties index className =>
          rw [replace, replace, replaceProperties_eq_map, replaceProperties_eq_map,
            replaceIndex_eq_map, replaceIndex_eq_map]
          refine (same_object_iff _ _).mpr ⟨by simpa using counts, ?_, ?_, className⟩
          · refine List.forall_mem_map.mpr fun p memberP => ?_
            obtain ⟨q, memberQ, same⟩ := properties p memberP
            refine ⟨_, List.mem_map_of_mem memberQ, same.name, ?_, same.optional⟩
            exact (parts _ (property_mem_children memberP) _ (property_mem_children memberQ)
              same.ty).same
          · refine rel_map_of_mem (fun i foundI j foundJ same => ⟨?_, ?_⟩) index
            · exact (parts _ (indexKey_mem_children foundI) _ (indexKey_mem_children foundJ)
                same.1).same
            · exact (parts _ (indexValue_mem_children foundI) _ (indexValue_mem_children foundJ)
                same.2).same
      | record keys values =>
          exact same_of_rebuilt (.record (parts _ (.head _) _ (.head _) keys)
            (parts _ (.tail _ (.head _)) _ (.tail _ (.head _)) values))
      | @unionOf members others =>
          have set : SameSet members others := unionMembers_same wfA wfB equal
          rw [replace, replace, replaceAll_eq_map, replaceAll_eq_map]
          exact union_same (replaced wfσ fun _ => wfA.child) (replaced wfσ fun _ => wfB.child)
            (set.map fun a memberA b memberB same => (parts a memberA b memberB same).same)
      | @intersectionOf members others =>
          have set : SameSet members others := intersectionMembers_same wfA wfB equal
          rw [replace, replace, replaceAll_eq_map, replaceAll_eq_map]
          exact intersection_same (replaced wfσ fun _ => wfA.child) (replaced wfσ fun _ => wfB.child)
            (set.map fun a memberA b memberB same => (parts a memberA b memberB same).same)
      | function typeParams params result =>
          rw [replace, replace, replaceAll_eq_map, replaceAll_eq_map, replaceTypeParams_eq_map,
            replaceTypeParams_eq_map]
          refine same_of_rebuilt (.function ?_ ?_ ?_)
          · have left := forall₂_filter_names (fun name => !σ.contains name)
              (fun t u both => both.1) typeParams
            refine forall₂_map_of_mem (fun t memberT u memberU both => ⟨both.1, ?_⟩) left
            refine rel_map_of_mem (fun c boundC d boundD same => ?_) both.2
            exact parts c (constraint_mem_children (List.mem_of_mem_filter memberT) boundC) d
              (constraint_mem_children (List.mem_of_mem_filter memberU) boundD) same
          · refine forall₂_map_of_mem (fun p memberP q memberQ same => ?_) params
            exact parts p (param_mem_children memberP) q (param_mem_children memberQ) same
          · exact parts _ (result_mem_children _) _ (result_mem_children _) result
      | keyof subject => exact (parts _ (.head _) _ (.head _) subject).same
      | predicate parameter guard =>
          exact same_of_rebuilt (.predicate (parts _ (.head _) _ (.head _) guard))

end Equality

section Normalization

theorem WellFormed.intersectionMembers_proper (wf : ty.WellFormed) (proper : ty.isAny = false) :
    ty.intersectionMembers.any isAny = false := by
  refine List.any_eq_false.mpr fun m member => ?_
  rw [Bool.not_eq_true]
  cases ty with
  | intersectionOf members => exact (wf.node.proper m member).1
  | _ =>
      cases List.mem_singleton.mp member
      exact proper

variable (wfσ : σ.WellFormed)

include wfσ

theorem UnionAbsorbs.replace {as : List Ty} (wf : ∀ a ∈ as, a.WellFormed) (wfB : b.WellFormed)
    (absorbs : UnionAbsorbs as b) : UnionAbsorbs (as.map (replace σ)) (b.replace σ) := by
  rcases absorbs with ⟨a, listed, isAny⟩ | isNever | ⟨a, listed, equal⟩ | absorbed
  · cases a with
    | primitive kind => exact .inl ⟨primitive kind, List.mem_map_of_mem listed, isAny⟩
    | _ => cases isAny
  · cases b with
    | primitive kind => exact .inr (.inl isNever)
    | _ => cases isNever
  · exact .inr (.inr (.inl ⟨_, List.mem_map_of_mem listed,
      replace_same wfσ (wf a listed) wfB equal⟩))
  · cases b with
    | literal l =>
        obtain ⟨base, listed, isBase⟩ := List.any_eq_true.mp absorbed
        cases base with
        | primitive kind =>
            exact .inr (.inr (.inr
              (List.any_eq_true.mpr ⟨primitive kind, List.mem_map_of_mem listed, isBase⟩)))
        | _ => cases isBase
    | _ => cases absorbed

/-- A union may be made before or after the substitution. -/
theorem replace_union (wf : ∀ ty ∈ tys, ty.WellFormed) :
    Same ((union tys).replace σ) (union (tys.map (replace σ))) := by
  have wfUnion : (union tys).WellFormed := union_wellFormed wf
  have wfMembers : ∀ m ∈ (union tys).unionMembers, m.WellFormed := fun m => wfUnion.unionMembers
  have wfFlat := wellFormed_unionMembers wf
  have condensed : Same ((union tys).replace σ)
      (union ((tys.flatMap unionMembers).map (replace σ))) := by
    rw [replace_eq_union wfσ wfUnion]
    apply union_same_of_absorbs_each (replaced wfσ wfMembers) (replaced wfσ wfFlat)
    · refine List.forall_mem_map.mpr fun m member => ?_
      exact (unionMembers_union_absorbed wf member).replace wfσ wfFlat (wfMembers m member)
    · refine List.forall_mem_map.mpr fun m listed => ?_
      exact (unionMembers_union_absorb wf listed).replace wfσ wfMembers (wfFlat m listed)
  have grouped : (tys.map fun ty => union (ty.unionMembers.map (replace σ))) =
      tys.map (replace σ) :=
    List.map_congr_left fun ty listed => (replace_eq_union wfσ (wf ty listed)).symm
  have spread : Same (union (tys.map (replace σ)))
      (union ((tys.flatMap unionMembers).map (replace σ))) := by
    rw [← grouped, List.map_flatMap]
    exact union_flatMap fun ty listed => replaced wfσ fun m => (wf ty listed).unionMembers
  have wfLeft := replace_wellFormed wfσ wfUnion
  have wfMiddle := union_wellFormed (replaced wfσ wfFlat)
  have wfRight := union_wellFormed (replaced wfσ wf)
  exact same_trans wfLeft wfMiddle wfRight condensed (same_symm wfRight wfMiddle spread)

theorem IntersectionAbsorbs.replace {as : List Ty} (wf : ∀ a ∈ as, a.WellFormed)
    (wfB : b.WellFormed) (proper : as.any isAny = false) (absorbs : IntersectionAbsorbs as b) :
    IntersectionAbsorbs (as.map (replace σ)) (b.replace σ) := by
  rcases absorbs with isNever | ⟨isAny, inhabited⟩ | ⟨a, listed, equal⟩
  · obtain ⟨a, listed, isNever⟩ := List.any_eq_true.mp isNever
    cases a with
    | primitive kind =>
        exact .inl (List.any_eq_true.mpr ⟨primitive kind, List.mem_map_of_mem listed, isNever⟩)
    | _ => cases isNever
  · rw [proper] at isAny
    cases isAny
  · exact .inr (.inr ⟨_, List.mem_map_of_mem listed, replace_same wfσ (wf a listed) wfB equal⟩)

/-- So may an intersection, unless it swallows some of its members. -/
theorem replace_intersection (wf : ∀ ty ∈ tys, ty.WellFormed) (some : tys ≠ [])
    (proper : (tys.flatMap intersectionMembers).any isAny = false) :
    Same ((intersection tys).replace σ) (intersection (tys.map (replace σ))) := by
  have wfWhole : (intersection tys).WellFormed := intersection_wellFormed wf
  have wfMembers : ∀ m ∈ (intersection tys).intersectionMembers, m.WellFormed :=
    fun m => wfWhole.intersectionMembers
  have wfFlat := wellFormed_intersectionMembers wf
  have properMembers : (intersection tys).intersectionMembers.any isAny = false :=
    wfWhole.intersectionMembers_proper (isAny_intersection_eq_false wf some proper)
  obtain ⟨absorbed, absorb⟩ := intersectionMembers_intersection_absorb wf some
  have condensed : Same ((intersection tys).replace σ)
      (intersection ((tys.flatMap intersectionMembers).map (replace σ))) := by
    rw [replace_eq_intersection wfσ wfWhole]
    apply intersection_same_of_absorbs_each (replaced wfσ wfMembers) (replaced wfσ wfFlat)
    · refine List.forall_mem_map.mpr fun m member => ?_
      exact (absorbed m member).replace wfσ wfFlat (wfMembers m member) proper
    · refine List.forall_mem_map.mpr fun m listed => ?_
      exact (absorb m listed).replace wfσ wfMembers (wfFlat m listed) properMembers
  have grouped : (tys.map fun ty => intersection (ty.intersectionMembers.map (replace σ))) =
      tys.map (replace σ) :=
    List.map_congr_left fun ty listed => (replace_eq_intersection wfσ (wf ty listed)).symm
  have spread : Same (intersection (tys.map (replace σ)))
      (intersection ((tys.flatMap intersectionMembers).map (replace σ))) := by
    rw [← grouped, List.map_flatMap]
    refine intersection_flatMap (fun ty listed => ?_) (fun ty listed => ?_)
    · exact replaced wfσ fun m => (wf ty listed).intersectionMembers
    · simpa using intersectionMembers_ne_nil (wf ty listed)
  have wfLeft := replace_wellFormed wfσ wfWhole
  have wfMiddle := intersection_wellFormed (replaced wfσ wfFlat)
  have wfRight := intersection_wellFormed (replaced wfσ wf)
  exact same_trans wfLeft wfMiddle wfRight condensed (same_symm wfRight wfMiddle spread)

end Normalization

section Composition

theorem WellFormed.same_trans {c : Ty} (wf : a.WellFormed) (first : Same a b) (second : Same b c) :
    Same a c :=
  Ty.same_trans wf (wf.of_same first) ((wf.of_same first).of_same second) first second

theorem EqualParts.of_same (wf : a.WellFormed) (equal : Same a b) : EqualParts a b :=
  ⟨wf, wf.of_same equal, equal⟩

theorem WellFormed.unionMembers_proper (wf : ty.WellFormed) (proper : ty.isAny = false) {m : Ty}
    (member : m ∈ ty.unionMembers) : m.isAny = false := by
  cases ty with
  | unionOf members => exact (wf.node.proper m member).1
  | _ =>
      cases List.mem_singleton.mp member
      exact proper

theorem any_isAny_replaced (wfσ : σ.WellFormed) {members : List Ty}
    (wf : (intersectionOf members).WellFormed)
    (proper : ∀ m ∈ members, (m.replace σ).isAny = false) :
    ((members.map (replace σ)).flatMap intersectionMembers).any isAny = false := by
  rw [List.any_flatMap, List.any_map, List.any_eq_false]
  intro m member
  have wfM := replace_wellFormed wfσ (wf.intersectionMember member)
  simp [wfM.intersectionMembers_proper (proper m member)]

/-- `any` does not come out of a substitution that does not put it in. -/
theorem isAny_replace (wfσ : σ.WellFormed) (noAny : ∀ name, σ.get? name ≠ some any)
    (wf : ty.WellFormed) (proper : ty.isAny = false) : (ty.replace σ).isAny = false := by
  induction ty using childrenInduction with
  | step ty ih =>
      cases ty with
      | primitive kind => exact proper
      | ref name =>
          rw [replace]
          cases bound : σ.get? name with
          | none => rfl
          | some found =>
              cases found with
              | primitive kind =>
                  cases kind with
                  | any => exact absurd bound (noAny name)
                  | _ => rfl
              | _ => rfl
      | unionOf members =>
          rw [replace, replaceAll_eq_map, isAny_union_eq_false_iff]
          intro m listed
          obtain ⟨part, inside, member⟩ := List.mem_flatMap.mp listed
          obtain ⟨own, here, rfl⟩ := List.mem_map.mp inside
          have kept := ih own here (wf.unionMember here) (wf.node.proper own here).1
          exact (replace_wellFormed wfσ (wf.unionMember here)).unionMembers_proper kept member
      | intersectionOf members =>
          rw [replace, replaceAll_eq_map]
          refine isAny_intersection_eq_false (replaced wfσ fun _ => wf.intersectionMember)
            (by simpa [intersectionMembers] using intersectionMembers_ne_nil wf) ?_
          refine any_isAny_replaced wfσ wf fun m member => ?_
          exact ih m member (wf.intersectionMember member) (wf.node.proper m member).1
      | _ => rfl

/-- Two substitutions one after the other, node by node. -/
theorem replace_replace (wfσ : σ.WellFormed) (wfτ : τ.WellFormed)
    (noAny : ∀ name, σ.get? name ≠ some any)
    (composed : ∀ name, ρ.get? name = ((σ.get? name).map (replace τ)).or (τ.get? name))
    (wf : ty.WellFormed) : Same ((ty.replace σ).replace τ) (ty.replace ρ) := by
  have contains (name : String) : ρ.contains name = (σ.contains name || τ.contains name) := by
    simp only [Substitution.contains, composed name]
    cases σ.get? name <;> simp
  induction ty using childrenInduction with
  | step ty ih =>
      have parts (c : Ty) (member : c ∈ ty.children) :
          EqualParts ((c.replace σ).replace τ) (c.replace ρ) :=
        .of_same (replace_wellFormed wfτ (replace_wellFormed wfσ (wf.child member)))
          (ih c member (wf.child member))
      have each (tys : List Ty) (inside : ∀ ty' ∈ tys, ty' ∈ ty.children) :
          List.Forall₂ EqualParts ((tys.map (replace σ)).map (replace τ)) (tys.map (replace ρ)) := by
        rw [List.map_map, List.forall₂_map_left_iff, List.forall₂_map_right_iff, List.forall₂_same]
        exact fun ty' listed => parts ty' (inside ty' listed)
      cases ty with
      | primitive kind => exact same_self _
      | literal value => exact same_self _
      | anyFunction => exact same_self _
      | ref name =>
          rw [replace, replace, composed name]
          cases bound : σ.get? name with
          | none => exact same_self _
          | some found => exact same_self _
      | array element => exact (parts element (.head _)).same
      | tuple elements =>
          simp only [replace, replaceAll_eq_map]
          exact same_of_rebuilt (.tuple (each elements fun _ listed => listed))
      | object shape =>
          simp only [replace, replaceProperties_eq_map, replaceIndex_eq_map]
          refine same_of_rebuilt (.object ?_ ?_ rfl)
          · simp only [List.map_map, List.forall₂_map_left_iff, List.forall₂_map_right_iff]
            refine List.forall₂_same.mpr fun p member => ⟨rfl, ?_, rfl⟩
            exact parts p.ty (property_mem_children member)
          · cases found : shape.index with
            | none => exact .none
            | some index =>
                exact .some ⟨parts _ (indexKey_mem_children found),
                  parts _ (indexValue_mem_children found)⟩
      | record key value =>
          exact same_of_rebuilt (.record (parts key (.head _)) (parts value (.tail _ (.head _))))
      | unionOf members =>
          simp only [replace, replaceAll_eq_map]
          have wfMembers := replaced wfσ fun _ => wf.unionMember
          have first := replace_union wfτ wfMembers
          have second := same_of_rebuilt (.union (each members fun _ listed => listed))
          exact (replace_wellFormed wfτ (union_wellFormed wfMembers)).same_trans first second
      | intersectionOf members =>
          simp only [replace, replaceAll_eq_map]
          have some : members.map (replace σ) ≠ [] := by
            simpa [intersectionMembers] using intersectionMembers_ne_nil wf
          have proper := any_isAny_replaced wfσ wf fun m member =>
            isAny_replace wfσ noAny (wf.intersectionMember member) (wf.node.proper m member).1
          have wfMembers := replaced wfσ fun _ => wf.intersectionMember
          have first := replace_intersection wfτ wfMembers some proper
          have second := same_of_rebuilt (.intersection (each members fun _ listed => listed))
          exact (replace_wellFormed wfτ (intersection_wellFormed wfMembers)).same_trans first second
      | function signature =>
          simp only [replace, replaceAll_eq_map, replaceTypeParams_eq_map]
          refine same_of_rebuilt (.function ?_ ?_ (parts _ (result_mem_children _)))
          · simp only [List.filter_map, List.filter_filter, List.map_map, List.forall₂_map_left_iff,
              List.forall₂_map_right_iff, contains, Bool.not_or, Bool.and_comm]
            refine List.forall₂_same.mpr fun p member => ⟨rfl, ?_⟩
            have declared : p ∈ signature.typeParams := List.mem_of_mem_filter member
            cases bound : p.constraint with
            | none => simp [bound]
            | some c => simpa [bound] using parts c (constraint_mem_children declared bound)
          · exact each signature.params fun _ listed => param_mem_children listed
      | keyof subject => exact (parts subject (.head _)).same
      | predicate parameter guard => exact same_of_rebuilt (.predicate (parts guard (.head _)))

/-- On types in normal form, nothing happens where no name of the type is bound. -/
theorem replace_of_unbound (unbound : ∀ name, ty.HasName name → σ.get? name = none)
    (wf : ty.WellFormed) : ty.replace σ = ty := by
  have kept {α : Type} {f : α → α} {xs : List α} (each : ∀ x ∈ xs, f x = x) : xs.map f = xs :=
    (List.map_congr_left each).trans (List.map_id' xs)
  induction ty using childrenInduction with
  | step ty ih =>
      have parts (c : Ty) (member : c ∈ ty.children) : c.replace σ = c :=
        ih c member (fun name deep => unbound name (.inside member deep)) (wf.child member)
      cases ty with
      | ref name => rw [replace, unbound name (.here (.head _)), Option.getD_none]
      | array element => rw [replace, parts element (.head _)]
      | tuple elements =>
          have each : elements.map (replace σ) = elements := kept parts
          rw [replace, replaceAll_eq_map, each]
      | object shape =>
          have slots : shape.properties.map (fun p => { p with ty := p.ty.replace σ }) =
              shape.properties :=
            kept fun p member => by rw [parts p.ty (property_mem_children member)]
          have index : shape.index.map (fun i => ⟨i.key.replace σ, i.value.replace σ⟩) =
              shape.index := by
            cases found : shape.index with
            | none => rfl
            | some i =>
                rw [Option.map_some, parts _ (indexKey_mem_children found),
                  parts _ (indexValue_mem_children found)]
          rw [replace, replaceProperties_eq_map, replaceIndex_eq_map, slots, index]
      | record key value =>
          rw [replace, parts key (.head _), parts value (.tail _ (.head _))]
      | unionOf members =>
          have each : members.map (replace σ) = members := kept parts
          rw [replace, replaceAll_eq_map, each, union_of_normal wf.node]
      | intersectionOf members =>
          have each : members.map (replace σ) = members := kept parts
          rw [replace, replaceAll_eq_map, each, intersection_of_normal wf]
      | function signature =>
          have typeParams : replaceTypeParams σ signature.typeParams = signature.typeParams := by
            have none : signature.typeParams.filter (fun p => !σ.contains p.name) =
                signature.typeParams :=
              List.filter_eq_self.mpr fun p member => by
                have own := unbound p.name (.here (List.mem_map_of_mem member))
                simp [Substitution.contains, own]
            rw [replaceTypeParams_eq_map, none]
            refine kept fun p member => ?_
            obtain ⟨name, _ | c⟩ := p
            · rfl
            · rw [Option.map_some, parts c (constraint_mem_children member rfl)]
          have params : signature.params.map (replace σ) = signature.params :=
            kept fun p member => parts p (param_mem_children member)
          rw [replace, replaceAll_eq_map, typeParams, params, parts _ (result_mem_children _)]
      | keyof subject => rw [replace, parts subject (.head _)]
      | predicate parameter guard => rw [replace, parts guard (.head _)]
      | _ => rfl

theorem substitute_eq_replace (wf : ty.WellFormed) : ty.substitute σ = ty.replace σ := by
  rw [substitute]
  split
  case isTrue free =>
    have none (name : String) : σ.get? name = none := by
      simp [Substitution.get?, List.isEmpty_iff.mp free]
    exact (replace_of_unbound (fun name _ => none name) wf).symm
  case isFalse => rfl

end Composition

end Ty

namespace Substitution

variable {σ τ ρ : Substitution}

/-- One substitution and then another: what the first binds, with the second done in it, and what
only the second binds. -/
def andThen (σ τ : Substitution) : Substitution :=
  ⟨σ.bindings.map (fun binding => (binding.1, binding.2.substitute τ)) ++
    τ.bindings.filter fun binding => !σ.contains binding.1⟩

theorem get?_andThen (name : String) : (σ.andThen τ).get? name =
    ((σ.get? name).map fun ty => ty.substitute τ).or (τ.get? name) := by
  have first : (σ.bindings.map fun binding => (binding.1, binding.2.substitute τ)).find?
      (fun binding => binding.1 == name) =
      (σ.bindings.find? fun binding => binding.1 == name).map
        fun binding => (binding.1, binding.2.substitute τ) := List.find?_map ..
  rw [get?, andThen, List.find?_append, first]
  cases bound : σ.bindings.find? (fun binding => binding.1 == name) with
  | some binding => simp [get?, bound]
  | none =>
      have unbound : σ.contains name = false := by simp [contains, get?, bound]
      have rest : (τ.bindings.filter fun binding => !σ.contains binding.1).find?
          (fun binding => binding.1 == name) =
          τ.bindings.find? fun binding => binding.1 == name := by
        rw [List.find?_filter]
        congr 1
        funext binding
        by_cases named : binding.1 = name <;> simp [named, unbound]
      simp [get?, bound, rest]

theorem get?_ne_any (proper : ∀ binding ∈ σ.bindings, binding.2.isAny = false) (name : String) :
    σ.get? name ≠ some .any := by
  intro bound
  obtain ⟨binding, found, isAny⟩ := Option.map_eq_some_iff.mp bound
  have kept := proper binding (List.mem_of_find?_eq_some found)
  rw [isAny] at kept
  cases kept

/-- Substitutions compose. If the first binds no name to `any`, doing one after the other is doing the
one that binds what the first binds, with the second done in it, and else what the second binds. -/
theorem substitute_substitute (wfσ : σ.WellFormed) (wfτ : τ.WellFormed)
    (noAny : ∀ name, σ.get? name ≠ some .any)
    (composed : ∀ name, ρ.get? name =
      ((σ.get? name).map fun ty => ty.substitute τ).or (τ.get? name))
    {ty : Ty} (wf : ty.WellFormed) :
    Ty.Same ((ty.substitute σ).substitute τ) (ty.substitute ρ) := by
  have bindings (name : String) : (σ.get? name).map (fun ty => ty.substitute τ) =
      (σ.get? name).map (Ty.replace τ) :=
    Option.map_congr fun found bound => Ty.substitute_eq_replace (wfσ.get? bound)
  have node := Ty.replace_replace wfσ wfτ noAny (fun name => by rw [composed, bindings]) wf
  rw [Ty.substitute_eq_replace wf, Ty.substitute_eq_replace wf,
    Ty.substitute_eq_replace (Ty.replace_wellFormed wfσ wf)]
  exact node

/-- A generic function with a union and an intersection in it. -/
def choose : Ty :=
  .function ⟨[⟨"T", none⟩, ⟨"K", some (.ref "T")⟩], [.unionOf [.ref "T", .literal (.text "x")]],
    .intersectionOf [.ref "T", .ref "K"]⟩

/-- The name that the first substitution puts in is bound by the second. Its literal is then absorbed,
and the intersection is `never`. -/
theorem choose_substitute :
    let σ : Substitution := ⟨[("T", .ref "U")]⟩
    let τ : Substitution := ⟨[("U", .string), ("K", .never)]⟩
    choose.WellFormed ∧ Ty.Same ((choose.substitute σ).substitute τ) (choose.substitute (σ.andThen τ)) ∧
      choose.substitute (σ.andThen τ) = .function ⟨[], [.string], .never⟩ := by
  have wf : choose.WellFormed := by decide +kernel
  refine ⟨wf, substitute_substitute ?_ ?_ ?_ get?_andThen wf, rfl⟩
  · decide +kernel
  · decide +kernel
  · exact get?_ne_any (by decide)

end Substitution

end StructuralTypes
