import StructuralTypes.Proofs.NormalForm.Aliases

set_option autoImplicit false

namespace StructuralTypes

section Coverage

/-- Everything that a type is an intersection of is among the leaves, up to names that were seen. -/
inductive Listed (leaves : List Ty) (seen : List String) : Ty → Prop
  | intersectionOf {members : List Ty} (each : ∀ m ∈ members, Listed leaves seen m) :
    Listed leaves seen (.intersectionOf members)
  | ref {name : String} (known : name ∈ seen) : Listed leaves seen (.ref name)
  | leaf {ty : Ty} (listed : ty ∈ leaves) : Listed leaves seen ty

theorem Listed.mono {leaves more : List Ty} {seen later : List String} {ty : Ty}
    (inLeaves : ∀ leaf ∈ leaves, leaf ∈ more) (inSeen : ∀ name ∈ seen, name ∈ later)
    (listed : Listed leaves seen ty) : Listed more later ty := by
  induction listed with
  | intersectionOf each ih => exact .intersectionOf ih
  | ref known => exact .ref (inSeen _ known)
  | leaf listed => exact .leaf (inLeaves _ listed)

variable (aliases : AliasMap)

/-- What a name stands for is listed, unless the search for it ended at a name. -/
def Expanded (leaves : List Ty) (seen : List String) (name : String) : Prop :=
  (∃ other, Ty.ref other ∈ leaves) ∨
    (aliases.resolve (.ref name)).refName? = none ∧ Listed leaves seen (aliases.resolve (.ref name))

/-- A part of the search: names are never forgotten, and those that are new were expanded. -/
structure Collected (seen : List String) (leaves : List Ty) (later : List String) : Prop where
  grows : ∀ name ∈ seen, name ∈ later
  expanded : ∀ name ∈ later, name ∈ seen ∨ Expanded aliases leaves later name

variable {aliases}

theorem Expanded.mono {leaves more : List Ty} {seen later : List String} {name : String}
    (inLeaves : ∀ leaf ∈ leaves, leaf ∈ more) (inSeen : ∀ name ∈ seen, name ∈ later)
    (expanded : Expanded aliases leaves seen name) : Expanded aliases more later name := by
  rcases expanded with ⟨other, stuck⟩ | ⟨resolved, listed⟩
  · exact Or.inl ⟨other, inLeaves _ stuck⟩
  · exact Or.inr ⟨resolved, listed.mono inLeaves inSeen⟩

theorem Collected.unchanged (seen : List String) (leaves : List Ty) :
    Collected aliases seen leaves seen :=
  ⟨fun _ known => known, fun _ known => Or.inl known⟩

theorem Collected.append {seen middle later : List String} {first rest : List Ty}
    (one : Collected aliases seen first middle) (two : Collected aliases middle rest later) :
    Collected aliases seen (first ++ rest) later := by
  constructor
  · intro name known
    exact two.grows name (one.grows name known)
  · intro name known
    rcases two.expanded name known with old | new
    · rcases one.expanded name old with older | expanded
      · exact Or.inl older
      · exact Or.inr (expanded.mono (fun _ => List.mem_append_left _) two.grows)
    · exact Or.inr (new.mono (fun _ => List.mem_append_right _) fun _ same => same)

variable {expand : List String → String → List Ty × List String}

theorem leavesOfAll_collected {tys : List Ty}
    (each : ∀ ty ∈ tys, ∀ seen, Collected aliases seen (ty.leavesWith expand seen).1
      (ty.leavesWith expand seen).2 ∧
        Listed (ty.leavesWith expand seen).1 (ty.leavesWith expand seen).2 ty)
    (seen : List String) :
    Collected aliases seen (Ty.leavesOfAll expand seen tys).1 (Ty.leavesOfAll expand seen tys).2 ∧
      ∀ ty ∈ tys, Listed (Ty.leavesOfAll expand seen tys).1 (Ty.leavesOfAll expand seen tys).2 ty := by
  induction tys generalizing seen with
  | nil =>
      refine ⟨Collected.unchanged seen _, ?_⟩
      intro ty member
      cases member
  | cons ty tys ih =>
      obtain ⟨one, here⟩ := each ty (.head _) seen
      obtain ⟨two, rest⟩ := ih (fun other listed => each other (.tail _ listed))
        (ty.leavesWith expand seen).2
      refine ⟨one.append two, ?_⟩
      intro other member
      rcases List.mem_cons.mp member with rfl | later
      · exact here.mono (fun _ => List.mem_append_left _) two.grows
      · exact (rest other later).mono (fun _ => List.mem_append_right _) fun _ same => same

theorem leavesWith_collected
    (expands : ∀ seen name, Collected aliases seen (expand seen name).1 (expand seen name).2 ∧
      Expanded aliases (expand seen name).1 (expand seen name).2 name)
    (ty : Ty) (seen : List String) :
    Collected aliases seen (ty.leavesWith expand seen).1 (ty.leavesWith expand seen).2 ∧
      Listed (ty.leavesWith expand seen).1 (ty.leavesWith expand seen).2 ty := by
  induction ty using Ty.childrenInduction generalizing seen with
  | step ty ih =>
      cases ty with
      | intersectionOf members =>
          obtain ⟨collected, each⟩ := leavesOfAll_collected ih seen
          exact ⟨collected, .intersectionOf each⟩
      | ref name =>
          rw [Ty.leavesWith]
          by_cases known : seen.contains name = true
          · rw [if_pos known]
            exact ⟨Collected.unchanged seen _, .ref (List.contains_iff_mem.mp known)⟩
          · rw [if_neg known]
            obtain ⟨collected, expanded⟩ := expands (name :: seen) name
            refine ⟨⟨?_, ?_⟩, .ref (collected.grows name (.head _))⟩
            · intro other old
              exact collected.grows other (.tail _ old)
            · intro other found
              rcases collected.expanded other found with old | new
              · rcases List.mem_cons.mp old with rfl | older
                · exact Or.inr expanded
                · exact Or.inl older
              · exact Or.inr new
      | _ => exact ⟨Collected.unchanged seen _, .leaf (.head _)⟩

theorem AliasMap.expandLeaves_collected (aliases : AliasMap) (left : Nat) (seen : List String) (name : String) :
    Collected aliases seen (aliases.expandLeaves left seen name).1
        (aliases.expandLeaves left seen name).2 ∧
      Expanded aliases (aliases.expandLeaves left seen name).1
        (aliases.expandLeaves left seen name).2 name := by
  induction left generalizing seen name with
  | zero => exact ⟨Collected.unchanged seen _, Or.inl ⟨name, .head _⟩⟩
  | succ left ih =>
      rw [AliasMap.expandLeaves]
      split
      case h_1 other _ => exact ⟨Collected.unchanged seen _, Or.inl ⟨other, .head _⟩⟩
      case h_2 _ single =>
        obtain ⟨collected, listed⟩ := leavesWith_collected ih (aliases.resolve (.ref name)) seen
        refine ⟨collected, Or.inr ⟨?_, listed⟩⟩
        cases resolved : aliases.resolve (.ref name) with
        | ref other => exact absurd resolved (single other)
        | _ => rfl

end Coverage

section Shapes

variable {aliases : AliasMap} {ty : Ty} {merged : Shape Ty}

theorem shaped_of_merge (merges : aliases.merge ty = .shape merged) :
    ∀ leaf ∈ aliases.leaves ty, ∃ shape, leaf.asShape? = some shape := by
  rw [AliasMap.merge, mergeLeaves] at merges
  split at merges
  · cases merges
  · split at merges
    · cases merges
    · rename_i shaped
      rw [Bool.not_eq_true, List.any_eq_false] at shaped
      intro leaf member
      have some := shaped leaf member
      rw [Option.isNone_iff_eq_none] at some
      exact Option.ne_none_iff_exists'.mp some

theorem merged_eq (merges : aliases.merge ty = .shape merged) :
    merged = ((aliases.leaves ty).filterMap Ty.asShape?).foldl Shape.meet {} := by
  rw [AliasMap.merge, mergeLeaves] at merges
  split at merges
  · cases merges
  · split at merges
    · cases merges
    · exact (Merged.shape.inj merges).symm

/-- When all leaves have shapes, the search went through every name that it met. -/
theorem exists_seen_of_merge (merges : aliases.merge ty = .shape merged) :
    ∃ seen, Listed (aliases.leaves ty) seen ty ∧
      ∀ name ∈ seen, (aliases.resolve (.ref name)).refName? = none ∧
        Listed (aliases.leaves ty) seen (aliases.resolve (.ref name)) := by
  have found := leavesWith_collected (aliases.expandLeaves_collected (aliases.size + 1)) ty []
  refine ⟨_, found.2, ?_⟩
  intro name known
  rcases found.1.expanded name known with impossible | ⟨other, stuck⟩ | expanded
  · cases impossible
  · obtain ⟨shape, shaped⟩ := shaped_of_merge merges _ stuck
    cases shaped
  · exact expanded

end Shapes

section Required

/-- Some slot of the given name has to be there. -/
def Requires (properties : List (Property Ty)) (name : String) : Prop :=
  ∃ p ∈ properties, p.name = name ∧ p.optional = false

theorem mem_putProperty_self {α : Type} (property : Property α) (properties : List (Property α)) :
    property ∈ putProperty property properties := by
  induction properties with
  | nil => exact .head _
  | cons first rest ih =>
      rw [putProperty]
      split
      · exact .head _
      · exact .tail _ ih

/-- Putting a property takes away at most the first one of its name. -/
theorem mem_putProperty_of_mem {α : Type} {property p : Property α} {properties : List (Property α)}
    (member : p ∈ properties) :
    p ∈ putProperty property properties ∨ findProperty? property.name properties = some p := by
  induction properties with
  | nil => cases member
  | cons first rest ih =>
      rw [putProperty, findProperty?, List.find?_cons]
      by_cases here : first.name = property.name
      · rw [if_pos here, beq_iff_eq.mpr here]
        rcases List.mem_cons.mp member with rfl | later
        · exact Or.inr rfl
        · exact Or.inl (.tail _ later)
      · have other : (first.name == property.name) = false := beq_eq_false_iff_ne.mpr here
        rw [if_neg here, other]
        rcases List.mem_cons.mp member with rfl | later
        · exact Or.inl (.head _)
        · rcases ih later with kept | replaced
          · exact Or.inl (.tail _ kept)
          · exact Or.inr replaced

theorem requires_meetProperty_of_requires {properties : List (Property Ty)} {name : String}
    (required : Requires properties name) (property : Property Ty) :
    Requires (meetProperty properties property) name := by
  obtain ⟨p, member, named, needed⟩ := required
  rw [meetProperty]
  cases found : findProperty? property.name properties with
  | none => exact ⟨p, List.mem_append_left _ member, named, needed⟩
  | some first =>
      let both : Property Ty :=
        { name := property.name
          ty := .intersection [first.ty, property.ty]
          optional := first.optional && property.optional }
      have outcome : p ∈ putProperty both properties ∨
          findProperty? property.name properties = some p := mem_putProperty_of_mem member
      rcases outcome with kept | replaced
      · exact ⟨p, kept, named, needed⟩
      · have same : first = p := Option.some.inj (found.symm.trans replaced)
        refine ⟨both, mem_putProperty_self both properties, ?_, ?_⟩
        · rw [← named, ← same]
          exact (mem_names_of_findProperty? found).2.symm
        · show (first.optional && property.optional) = false
          rw [same, needed, Bool.false_and]

theorem requires_meetProperty_self {properties : List (Property Ty)} {property : Property Ty}
    (needed : property.optional = false) :
    Requires (meetProperty properties property) property.name := by
  rw [meetProperty]
  cases findProperty? property.name properties with
  | none => exact ⟨property, List.mem_append_right _ (.head _), rfl, needed⟩
  | some first =>
      refine ⟨_, mem_putProperty_self _ properties, rfl, ?_⟩
      show (first.optional && property.optional) = false
      rw [needed, Bool.and_false]

theorem requires_foldl_meetProperty {properties others : List (Property Ty)} {name : String}
    (required : Requires properties name ∨ Requires others name) :
    Requires (others.foldl meetProperty properties) name := by
  induction others generalizing properties with
  | nil =>
      rcases required with first | ⟨p, impossible, _⟩
      · exact first
      · cases impossible
  | cons other others ih =>
      apply ih
      rcases required with first | ⟨p, member, named, needed⟩
      · exact Or.inl (requires_meetProperty_of_requires first other)
      · rcases List.mem_cons.mp member with rfl | later
        · exact Or.inl (named ▸ requires_meetProperty_self needed)
        · exact Or.inr ⟨p, later, named, needed⟩

theorem requires_foldl_meet {shape : Shape Ty} {shapes : List (Shape Ty)} {name : String}
    (required : Requires shape.properties name ∨ ∃ s ∈ shapes, Requires s.properties name) :
    Requires (shapes.foldl Shape.meet shape).properties name := by
  induction shapes generalizing shape with
  | nil =>
      rcases required with first | ⟨s, impossible, _⟩
      · exact first
      · cases impossible
  | cons other others ih =>
      apply ih
      rcases required with first | ⟨s, member, needed⟩
      · exact Or.inl (requires_foldl_meetProperty (Or.inl first))
      · rcases List.mem_cons.mp member with rfl | later
        · exact Or.inl (requires_foldl_meetProperty (Or.inr needed))
        · exact Or.inr ⟨s, later, needed⟩

theorem requires_merged {aliases : AliasMap} {ty leaf : Ty} {merged shape : Shape Ty}
    (merges : aliases.merge ty = .shape merged) (member : leaf ∈ aliases.leaves ty)
    (shaped : leaf.asShape? = some shape) {name : String}
    (required : Requires shape.properties name) : Requires merged.properties name := by
  rw [merged_eq merges]
  exact requires_foldl_meet (Or.inr ⟨shape, List.mem_filterMap.mpr ⟨leaf, member, shaped⟩, required⟩)

end Required

section Covering

variable {aliases : AliasMap} {checked : Shape Ty} {leaves : List Ty} {seen : List String} {target : Ty}

/-- A closed set of parts: what the names stand for is listed, and the leaves have shapes that
require no more than the shape that is checked in their place. -/
structure Covering (aliases : AliasMap) (checked : Shape Ty) (leaves : List Ty)
    (seen : List String) : Prop where
  expanded : ∀ name ∈ seen, (aliases.resolve (.ref name)).refName? = none ∧
    Listed leaves seen (aliases.resolve (.ref name))
  shaped : ∀ leaf ∈ leaves, ∃ shape, leaf.asShape? = some shape ∧
    ∀ name, Requires shape.properties name → Requires checked.properties name

theorem covering_of_shape (shaped : target.asShape? = some checked) :
    Covering aliases checked [target] [] where
  expanded := by
    intro name impossible
    cases impossible
  shaped := by
    intro leaf member
    cases List.mem_singleton.mp member
    exact ⟨checked, shaped, fun _ required => required⟩

theorem exists_covering_of_merge (merges : aliases.merge target = .shape checked) :
    ∃ seen, Covering aliases checked (aliases.leaves target) seen ∧
      Listed (aliases.leaves target) seen target := by
  obtain ⟨seen, listed, expanded⟩ := exists_seen_of_merge merges
  refine ⟨seen, ⟨expanded, ?_⟩, listed⟩
  intro leaf member
  obtain ⟨shape, shaped⟩ := shaped_of_merge merges leaf member
  exact ⟨shape, shaped, fun _ required => requires_merged merges member shaped required⟩

/-- What is listed stays listed when it is made concrete, and is no longer a name. -/
theorem Covering.concrete (covering : Covering aliases checked leaves seen) {part : Ty}
    (listed : Listed leaves seen part) :
    Listed leaves seen (aliases.concrete part) ∧ (aliases.concrete part).refName? = none := by
  cases listed with
  | @intersectionOf members each =>
      rw [AliasMap.concrete_eq_self rfl fun _ => Ty.noConfusion]
      exact ⟨.intersectionOf each, rfl⟩
  | @ref name known =>
      obtain ⟨single, inside⟩ := covering.expanded name known
      have resolved : aliases.concrete (.ref name) = aliases.resolve (.ref name) := by
        rw [AliasMap.concrete]
        split
        case h_1 subject evaluated =>
          rw [evaluated] at inside
          cases inside with
          | leaf member =>
              obtain ⟨shape, found, _⟩ := covering.shaped _ member
              cases found
        case h_2 => rfl
      rw [resolved]
      exact ⟨inside, single⟩
  | leaf member =>
      obtain ⟨shape, shaped, _⟩ := covering.shaped part member
      rw [AliasMap.concrete_of_asShape? shaped]
      exact ⟨.leaf member, AliasMap.refName?_of_asShape? shaped⟩

theorem Covering.member (covering : Covering aliases checked leaves seen) {members : List Ty}
    (listed : Listed leaves seen (.intersectionOf members)) {m : Ty} (member : m ∈ members) :
    Listed leaves seen m := by
  cases listed with
  | intersectionOf each => exact each m member
  | leaf found =>
      obtain ⟨shape, impossible, _⟩ := covering.shaped _ found
      cases impossible

theorem Covering.cases (covering : Covering aliases checked leaves seen)
    (listed : Listed leaves seen target) (single : target.refName? = none) :
    (∃ members, target = .intersectionOf members) ∨ ∃ shape, target.asShape? = some shape := by
  cases listed with
  | intersectionOf each => exact Or.inl ⟨_, rfl⟩
  | ref known => cases single
  | leaf found =>
      obtain ⟨shape, shaped, _⟩ := covering.shaped _ found
      exact Or.inr ⟨shape, shaped⟩

theorem Listed.mem_of_asShape? {shape : Shape Ty} (listed : Listed leaves seen target)
    (shaped : target.asShape? = some shape) : target ∈ leaves := by
  cases listed with
  | intersectionOf each => cases shaped
  | ref known => cases shaped
  | leaf found => exact found

end Covering

end StructuralTypes
