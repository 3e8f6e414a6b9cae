import StructuralTypes.Proofs.Ty.Composition

set_option autoImplicit false

namespace StructuralTypes

namespace Ty

variable {σ : Substitution} {ty : Ty} {tys : List Ty} {name : String}

section Constructors

theorem not_hasName_primitive (kind : Primitive) : ¬ (primitive kind).HasName name := by
  intro named
  cases named with
  | here own => cases own
  | inside member deep => cases member

theorem hasName_ref {own : String} (named : (ref own).HasName name) : name = own := by
  cases named with
  | here listed => exact List.mem_singleton.mp listed
  | inside member deep => cases member

theorem HasName.of_unionMember {m : Ty} (member : m ∈ ty.unionMembers) (named : m.HasName name) :
    ty.HasName name := by
  cases ty with
  | unionOf members => exact .inside member named
  | _ =>
      cases List.mem_singleton.mp member
      exact named

theorem HasName.of_intersectionMember {m : Ty} (member : m ∈ ty.intersectionMembers)
    (named : m.HasName name) : ty.HasName name := by
  cases ty with
  | intersectionOf members => exact .inside member named
  | _ =>
      cases List.mem_singleton.mp member
      exact named

/-- A node over some types, without names of its own, has no names but theirs. -/
theorem exists_hasName_collapse {kind : Primitive} {node : List Ty → Ty}
    (own : (node tys).ownNames = []) (parts : (node tys).children = tys)
    (named : (collapse (primitive kind) node tys).HasName name) : ∃ ty ∈ tys, ty.HasName name := by
  match tys with
  | [] => exact absurd named (not_hasName_primitive kind)
  | [ty] => exact ⟨ty, .head _, named⟩
  | first :: second :: rest =>
      have whole : (node (first :: second :: rest)).HasName name := named
      cases whole with
      | here listed =>
          rw [own] at listed
          cases listed
      | inside member deep =>
          rw [parts] at member
          exact ⟨_, member, deep⟩

theorem exists_hasName_union (named : (union tys).HasName name) : ∃ ty ∈ tys, ty.HasName name := by
  rw [union_eq] at named
  split at named
  · exact absurd named (not_hasName_primitive .any)
  · obtain ⟨m, kept, deep⟩ := exists_hasName_collapse rfl rfl named
    have member := mem_of_mem_distinct (mem_of_mem_keptMembers kept)
    obtain ⟨ty, listed, inside⟩ := List.mem_flatMap.mp member
    exact ⟨ty, listed, deep.of_unionMember inside⟩

theorem exists_hasName_intersection (named : (intersection tys).HasName name) :
    ∃ ty ∈ tys, ty.HasName name := by
  rw [intersection_eq] at named
  split at named
  · exact absurd named (not_hasName_primitive .never)
  · split at named
    · exact absurd named (not_hasName_primitive .any)
    · obtain ⟨m, kept, deep⟩ := exists_hasName_collapse rfl rfl named
      obtain ⟨ty, listed, inside⟩ := List.mem_flatMap.mp (mem_of_mem_distinct kept)
      exact ⟨ty, listed, deep.of_intersectionMember inside⟩

end Constructors

section Origins

/-- The node is built again from its parts in their places. -/
def isPlaced : Ty → Bool
  | ref _ | unionOf _ | intersectionOf _ => false
  | _ => true

theorem mem_children_replace (placed : ty.isPlaced = true) {part : Ty}
    (member : part ∈ (ty.replace σ).children) : ∃ child ∈ ty.children, part = child.replace σ := by
  cases ty with
  | ref | unionOf | intersectionOf => cases placed
  | tuple elements =>
      rw [replace, replaceAll_eq_map] at member
      obtain ⟨element, listed, rfl⟩ := List.mem_map.mp member
      exact ⟨element, listed, rfl⟩
  | object shape =>
      rw [replace, replaceProperties_eq_map, replaceIndex_eq_map] at member
      rcases List.mem_append.mp member with slot | signature
      · obtain ⟨q, replaced, rfl⟩ := List.mem_map.mp slot
        obtain ⟨p, listed, rfl⟩ := List.mem_map.mp replaced
        exact ⟨p.ty, property_mem_children listed, rfl⟩
      · cases found : shape.index with
        | none => simp [found] at signature
        | some index =>
            simp only [found, Option.map_some, Option.toList_some, List.flatMap_cons,
              List.flatMap_nil, List.append_nil, List.mem_cons, List.not_mem_nil,
              or_false] at signature
            rcases signature with rfl | rfl
            · exact ⟨index.key, indexKey_mem_children found, rfl⟩
            · exact ⟨index.value, indexValue_mem_children found, rfl⟩
  | function signature =>
      rw [replace, replaceAll_eq_map] at member
      rcases List.mem_append.mp member with front | last
      · rcases List.mem_append.mp front with constraint | param
        · obtain ⟨q, kept, bound⟩ := List.mem_filterMap.mp constraint
          obtain ⟨p, declared, c, known, rfl⟩ := exists_of_mem_replaceTypeParams kept bound
          exact ⟨c, constraint_mem_children declared known, rfl⟩
        · obtain ⟨p, listed, rfl⟩ := List.mem_map.mp param
          exact ⟨p, param_mem_children listed, rfl⟩
      · exact ⟨signature.result, result_mem_children signature, List.mem_singleton.mp last⟩
  | primitive | literal | anyFunction => cases member
  | record key value =>
      rcases List.mem_cons.mp member with rfl | last
      · exact ⟨key, .head _, rfl⟩
      · exact ⟨value, .tail _ (.head _), List.mem_singleton.mp last⟩
  | array element => exact ⟨element, .head _, List.mem_singleton.mp member⟩
  | keyof subject => exact ⟨subject, .head _, List.mem_singleton.mp member⟩
  | predicate parameter guard => exact ⟨guard, .head _, List.mem_singleton.mp member⟩

/-- A function keeps the type parameters that are not bound. -/
theorem mem_ownNames_replace (placed : ty.isPlaced = true)
    (own : name ∈ (ty.replace σ).ownNames) : name ∈ ty.ownNames ∧ σ.get? name = none := by
  cases ty with
  | ref | unionOf | intersectionOf => cases placed
  | function signature =>
      rw [replace, replaceTypeParams_eq_map] at own
      obtain ⟨q, kept, rfl⟩ := List.mem_map.mp own
      obtain ⟨p, left, rfl⟩ := List.mem_map.mp kept
      obtain ⟨declared, unbound⟩ := List.mem_filter.mp left
      exact ⟨List.mem_map.mpr ⟨p, declared, rfl⟩, by simpa [Substitution.contains] using unbound⟩
  | _ => cases own

/-- Where a name in the result of a substitution comes from. -/
def Origin (σ : Substitution) (name : String) (ty : Ty) : Prop :=
  ty.HasName name ∧ σ.get? name = none ∨
    ∃ bound binding, ty.HasName bound ∧ σ.get? bound = some binding ∧ binding.HasName name

theorem Origin.inside {child : Ty} (member : child ∈ ty.children) (origin : child.Origin σ name) :
    ty.Origin σ name := by
  rcases origin with ⟨named, unbound⟩ | ⟨bound, binding, named, found, brought⟩
  · exact .inl ⟨.inside member named, unbound⟩
  · exact .inr ⟨bound, binding, .inside member named, found, brought⟩

/-- Every name in the result has an origin. Nodes that are placed keep their places; a union or an
intersection has no names but those of the members it was built from. -/
theorem HasName.origin (named : (ty.replace σ).HasName name) : ty.Origin σ name := by
  induction ty using childrenInduction with
  | step ty ih =>
      have placed (here : ty.isPlaced = true) : ty.Origin σ name := by
        cases named with
        | here own => exact .inl ((mem_ownNames_replace here own).imp_left .here)
        | inside member deep =>
            obtain ⟨child, listed, rfl⟩ := mem_children_replace here member
            exact (ih child listed deep).inside listed
      have collected (members : List Ty) (parts : ∀ m ∈ members, m ∈ ty.children)
          (some : ∃ m ∈ members.map (replace σ), m.HasName name) : ty.Origin σ name := by
        obtain ⟨_, replaced, deep⟩ := some
        obtain ⟨m, listed, rfl⟩ := List.mem_map.mp replaced
        exact (ih m (parts m listed) deep).inside (parts m listed)
      cases ty with
      | ref own =>
          cases found : σ.get? own with
          | none =>
              rw [replace, found] at named
              have same := hasName_ref named
              exact .inl ⟨named, same ▸ found⟩
          | some binding =>
              rw [replace, found] at named
              exact .inr ⟨own, binding, .here (.head _), found, named⟩
      | unionOf members =>
          rw [replace, replaceAll_eq_map] at named
          exact collected members (fun _ => id) (exists_hasName_union named)
      | intersectionOf members =>
          rw [replace, replaceAll_eq_map] at named
          exact collected members (fun _ => id) (exists_hasName_intersection named)
      | _ => exact placed rfl

/-- Nothing is left of the names that are bound, if no binding brings one in. -/
theorem unbound_of_replace
    (closed : ∀ bound binding, σ.get? bound = some binding →
      ∀ name, binding.HasName name → σ.get? name = none)
    (named : (ty.replace σ).HasName name) : σ.get? name = none := by
  rcases named.origin with ⟨_, unbound⟩ | ⟨bound, binding, _, found, brought⟩
  · exact unbound
  · exact closed bound binding found name brought

end Origins

section Decision

/-- No name of the type is bound, told from its nodes. -/
theorem unbound_of_throughout
    (nodes : ty.Throughout fun node => ∀ name ∈ node.ownNames, σ.get? name = none) (name : String)
    (named : ty.HasName name) : σ.get? name = none := by
  induction named with
  | here own => exact nodes.here name own
  | inside member deep ih => exact ih (nodes.child member)

theorem closed_of_throughout
    (nodes : ∀ b ∈ σ.bindings, b.2.Throughout fun node => ∀ name ∈ node.ownNames, σ.get? name = none)
    (bound : String) (binding : Ty) (found : σ.get? bound = some binding) (name : String)
    (named : binding.HasName name) : σ.get? name = none := by
  obtain ⟨b, listed, rfl⟩ := Option.map_eq_some_iff.mp found
  exact unbound_of_throughout (nodes b (List.mem_of_find?_eq_some listed)) name named

end Decision

/-- Substitution touches the bound names and nothing else. What is left are names that are not bound
and names of bindings; a type without bound names stays the same type; and where no binding has a
bound name, doing it again changes nothing. -/
theorem substitute_touches (wf : ty.WellFormed) (wfσ : σ.WellFormed) :
    (∀ name, (ty.substitute σ).HasName name →
      ty.HasName name ∧ σ.get? name = none ∨
        ∃ bound binding, ty.HasName bound ∧ σ.get? bound = some binding ∧ binding.HasName name) ∧
    ((∀ name, ty.HasName name → σ.get? name = none) → ty.substitute σ = ty) ∧
    ((∀ bound binding, σ.get? bound = some binding →
        ∀ name, binding.HasName name → σ.get? name = none) →
      (ty.substitute σ).substitute σ = ty.substitute σ) := by
  have wfResult := replace_wellFormed wfσ wf
  rw [substitute_eq_replace wf, substitute_eq_replace wfResult]
  refine ⟨fun name named => named.origin, fun unbound => replace_of_unbound unbound wf, ?_⟩
  intro closed
  exact replace_of_unbound (fun name named => unbound_of_replace closed named) wfResult

/-- A generic function with a constraint, a union and an intersection over its parameter. -/
def pick : Ty :=
  .function ⟨[⟨"T", none⟩, ⟨"K", some (.keyof (.ref "T"))⟩],
    [.object
      { properties := [⟨"spare", .intersectionOf [.ref "T", .ref "Extra"], true⟩]
        className := some "Source" }],
    .unionOf [.ref "K", .literal (.text "none"), .ref "T"]⟩

/-- The binding of `T` absorbs the literal. `T` is gone after the first go, the second finds nothing
to do, and a binding of another name does not touch the function. -/
theorem pick_touched :
    let σ : Substitution := ⟨[("T", .unionOf [.string, .ref "Item"])]⟩
    let τ : Substitution := ⟨[("Item", .null), ("Source", .any)]⟩
    pick.WellFormed ∧ ¬ (pick.substitute σ).HasName "T" ∧
      (pick.substitute σ).substitute σ = pick.substitute σ ∧ pick.substitute τ = pick := by
  intro σ τ
  have wf : pick.WellFormed := by decide +kernel
  have wfσ : σ.WellFormed := by decide +kernel
  have wfτ : τ.WellFormed := by decide +kernel
  have closed := closed_of_throughout (by decide : ∀ b ∈ σ.bindings,
    b.2.Throughout fun node => ∀ name ∈ node.ownNames, σ.get? name = none)
  have unbound := unbound_of_throughout (by decide : pick.Throughout fun node =>
    ∀ name ∈ node.ownNames, τ.get? name = none)
  refine ⟨wf, fun named => ?_, (substitute_touches wf wfσ).2.2 closed,
    (substitute_touches wf wfτ).2.1 unbound⟩
  rcases (substitute_touches wf wfσ).1 "T" named with ⟨_, unbound⟩ | ⟨bound, binding, _, found, brought⟩
  · cases unbound
  · cases closed bound binding found "T" brought

end Ty

end StructuralTypes
