import StructuralTypes.Proofs.Reordering.Merge

set_option autoImplicit false

namespace StructuralTypes

section Slots

variable {properties merged : List (Property Ty)} {property : Property Ty}

theorem names_meetProperty (properties : List (Property Ty)) (property : Property Ty) :
    (meetProperty properties property).map (·.name) = properties.map (·.name) ++
      if property.name ∈ properties.map (·.name) then [] else [property.name] := by
  cases found : findProperty? property.name properties with
  | none =>
      rw [meetProperty_of_new found, if_neg (findProperty?_eq_none.mp found), List.map_append]
      rfl
  | some first =>
      obtain ⟨member, named⟩ := mem_names_of_findProperty? found
      have present : property.name ∈ properties.map (·.name) := List.mem_map.mpr ⟨first, member, named⟩
      rw [names_of_found found, if_pos present, List.append_nil]

theorem eraseDups_snoc (names : List String) (name : String) :
    (names ++ [name]).eraseDups = names.eraseDups ++ if name ∈ names then [] else [name] := by
  rw [List.eraseDups_append]
  by_cases known : name ∈ names <;> simp [List.removeAll, known, List.eraseDups_cons]

/-- One slot for each name, in the order in which the names are first met. -/
structure Slots (properties merged : List (Property Ty)) : Prop where
  distinct : (merged.map (·.name)).Nodup
  order : merged.map (·.name) = (properties.map (·.name)).eraseDups
  optional : ∀ p ∈ merged, p.optional = true ↔ ∀ q ∈ properties, q.name = p.name → q.optional = true

theorem Slots.snoc (slots : Slots properties merged) :
    Slots (properties ++ [property]) (meetProperty merged property) where
  distinct := by
    rw [names_meetProperty]
    split
    next => simpa using slots.distinct
    next new => simpa [List.nodup_append, slots.distinct] using new
  order := by
    rw [names_meetProperty, slots.order, List.map_append, List.map_singleton, eraseDups_snoc]
    simp only [List.mem_eraseDups]
  optional := by
    refine optional_meetProperty slots.distinct (fun name => ?_) slots.optional
    rw [slots.order, List.mem_eraseDups]

theorem slots_foldl (properties : List (Property Ty)) :
    Slots properties (properties.foldl meetProperty []) := by
  induction properties using List.reverseRecOn with
  | nil => exact ⟨List.nodup_nil, rfl, nofun⟩
  | append_singleton properties property ih =>
      rw [List.foldl_append]
      exact ih.snoc

end Slots

section Shapes

theorem key_meetIndex (first second : Option (IndexSignature Ty)) :
    (meetIndex first second).map (·.key) = (first.or second).map (·.key) := by
  cases first <;> cases second <;> rfl

/-- The first index signature gives the key. -/
theorem key_foldl_meet (shapes : List (Shape Ty)) :
    (shapes.foldl Shape.meet {}).index.map (·.key) =
      (shapes.findSome? (·.index)).map (·.key) := by
  induction shapes using List.reverseRecOn with
  | nil => rfl
  | append_singleton others other ih =>
      rw [List.foldl_append, List.findSome?_append]
      show (meetIndex (others.foldl Shape.meet {}).index other.index).map (·.key) = _
      rw [key_meetIndex, Option.map_or, ih, Option.map_or]
      simp

theorem fresh_foldl_meet (shapes : List (Shape Ty)) : (shapes.foldl Shape.meet {}).fresh = false := by
  induction shapes using List.reverseRecOn with
  | nil => rfl
  | append_singleton others other _ =>
      rw [List.foldl_append]
      rfl

/-- An ordinary object without a class that has the slots of all shapes, as they are first met. -/
structure SlotsOf (shapes : List (Shape Ty)) (merged : Shape Ty) : Prop where
  order : merged.properties.map (·.name) = ((shapes.flatMap (·.properties)).map (·.name)).eraseDups
  optional : ∀ p ∈ merged.properties, p.optional = true ↔
    ∀ s ∈ shapes, ∀ q ∈ s.properties, q.name = p.name → q.optional = true
  key : merged.index.map (·.key) = (shapes.findSome? (·.index)).map (·.key)
  className : merged.className = none
  fresh : merged.fresh = false

/-- Each slot has the intersection of all types that are given for it. -/
structure TypesOf (shapes : List (Shape Ty)) (merged : Shape Ty) : Prop where
  types : ∀ p ∈ merged.properties,
    p.ty.Same (.intersection (typesNamed p.name (shapes.flatMap (·.properties))))
  value : ∀ i, merged.index = some i →
    i.value.Same (.intersection ((shapes.filterMap (·.index)).map (·.value)))

theorem slotsOf_foldl_meet (shapes : List (Shape Ty)) :
    SlotsOf shapes (shapes.foldl Shape.meet {}) := by
  have slots : Slots (shapes.flatMap (·.properties)) (shapes.foldl Shape.meet {}).properties := by
    rw [foldl_meet_properties]
    exact slots_foldl _
  refine ⟨slots.order, fun p member => ?_, key_foldl_meet shapes, foldl_meet_className,
    fresh_foldl_meet shapes⟩
  rw [slots.optional p member]
  simp only [List.mem_flatMap]
  grind

/-- The types of the slots depend on the shapes as a set. -/
theorem typesOf_foldl_meet {shapes others : List (Shape Ty)}
    (wf : ∀ s ∈ shapes, (Ty.object s).WellFormed) (same : ∀ s, s ∈ others ↔ s ∈ shapes) :
    TypesOf others (shapes.foldl Shape.meet {}) := by
  have wfMerged := wellFormed_foldl_meet wf
  have wfOthers : ∀ s ∈ others, (Ty.object s).WellFormed := fun s listed => wf s ((same s).mp listed)
  constructor
  · intro p member
    have wfTypes : ∀ ty ∈ typesNamed p.name (shapes.flatMap (·.properties)), ty.WellFormed :=
      typesNamed_wellFormed (wellFormed_slots wf)
    have wfTypes' : ∀ ty ∈ typesNamed p.name (others.flatMap (·.properties)), ty.WellFormed :=
      typesNamed_wellFormed (wellFormed_slots wfOthers)
    refine Ty.same_trans (wfMerged.property member) (Ty.intersection_wellFormed wfTypes)
      (Ty.intersection_wellFormed wfTypes') ((meets_foldl_meet wf).types p member)
      (Ty.intersection_same wfTypes wfTypes' (.of_mem_iff fun ty => ?_))
    simp only [mem_typesNamed, List.mem_flatMap, same]
  · intro i found
    have wfValues := wellFormed_values wf
    have wfValues' := wellFormed_values wfOthers
    refine Ty.same_trans (wfMerged.indexValue found) (Ty.intersection_wellFormed wfValues)
      (Ty.intersection_wellFormed wfValues') ((meetsIndex_foldl_meet wf).value i found)
      (Ty.intersection_same wfValues wfValues' (.of_mem_iff fun ty => ?_))
    simp only [List.mem_map, List.mem_filterMap, same]

end Shapes

namespace AliasMap

variable {aliases : AliasMap} {ty : Ty}

theorem merge_of_any (found : ∃ leaf, LeafOf aliases ty leaf ∧ leaf.isAny = true) :
    aliases.merge ty = .any := by
  obtain ⟨leaf, inside, isAny⟩ := found
  have some : (aliases.leaves ty).any Ty.isAny = true :=
    List.any_eq_true.mpr ⟨leaf, mem_leaves_iff.mpr inside, isAny⟩
  rw [merge, mergeLeaves, if_pos some]

theorem merge_of_shapeless (proper : ∀ leaf, LeafOf aliases ty leaf → leaf.isAny = false)
    (found : ∃ leaf, LeafOf aliases ty leaf ∧ leaf.asShape? = none) :
    aliases.merge ty = .notMergeable := by
  obtain ⟨leaf, inside, shapeless⟩ := found
  have noAny : ¬ (aliases.leaves ty).any Ty.isAny = true := by
    rw [Bool.not_eq_true, List.any_eq_false]
    intro other visited
    rw [proper other (mem_leaves_iff.mp visited)]
    exact Bool.false_ne_true
  have some : (aliases.leaves ty).any (fun leaf => leaf.asShape?.isNone) = true :=
    List.any_eq_true.mpr ⟨leaf, mem_leaves_iff.mpr inside, by rw [shapeless]; rfl⟩
  rw [merge, mergeLeaves, if_neg noAny, if_pos some]

/-- The shapes that are reached from a type. -/
theorem mem_shapes_iff {s : Shape Ty} : s ∈ (aliases.leaves ty).filterMap Ty.asShape? ↔
    ∃ leaf, LeafOf aliases ty leaf ∧ leaf.asShape? = some s := by
  simp only [List.mem_filterMap, mem_leaves_iff]

/-- Merging a type computes the meet of all shapes that are reached from it, also where names lead
back to themselves. Its leaves are visited in one order, which ends; `any` outweighs leaves without
a shape. -/
theorem merge_meets (aliases : AliasMap) (ty : Ty) :
    ∃ visited : List Ty, (∀ leaves, Visits aliases [] [ty] leaves ↔ leaves = visited) ∧
      (∀ leaf, leaf ∈ visited ↔ LeafOf aliases ty leaf) ∧
      ((∃ leaf, LeafOf aliases ty leaf ∧ leaf.isAny = true) → aliases.merge ty = .any) ∧
      ((∀ leaf, LeafOf aliases ty leaf → leaf.isAny = false) →
        (∃ leaf, LeafOf aliases ty leaf ∧ leaf.asShape? = none) →
          aliases.merge ty = .notMergeable) ∧
      ((∀ leaf, LeafOf aliases ty leaf → ∃ s, leaf.asShape? = some s) →
        ∃ merged, aliases.merge ty = .shape merged ∧
          SlotsOf (visited.filterMap Ty.asShape?) merged ∧
          (aliases.WellFormed → ty.WellFormed → ∀ shapes : List (Shape Ty),
            (∀ s, s ∈ shapes ↔ ∃ leaf, LeafOf aliases ty leaf ∧ leaf.asShape? = some s) →
              TypesOf shapes merged)) := by
  have visits := aliases.visits_leaves ty
  refine ⟨aliases.leaves ty, fun leaves => ?_, fun leaf => mem_leaves_iff, merge_of_any,
    merge_of_shapeless, fun shaped => ?_⟩
  · constructor
    · intro also
      exact also.unique visits
    · rintro rfl
      exact visits
  · have merges := merge_of_shaped fun leaf visited => shaped leaf (mem_leaves_iff.mp visited)
    refine ⟨_, merges, slotsOf_foldl_meet _, fun wf wfTy shapes reached => ?_⟩
    refine typesOf_foldl_meet (fun s listed => ?_) fun s => (reached s).trans mem_shapes_iff.symm
    obtain ⟨leaf, visited, found⟩ := List.mem_filterMap.mp listed
    exact (leaves_wellFormed wf wfTy leaf visited).asShape found

/-- What an entry and a revision of it have in common: each is said to be the other and more. -/
def revisions : AliasMap where
  definitions :=
    [⟨"Entry", [], .intersectionOf [.ref "Revision",
        .object { properties := [⟨"id", .unionOf [.string, .number], false⟩, ⟨"note", .string, true⟩] }]⟩,
      ⟨"Revision", [], .intersectionOf [.ref "Entry", .record .string .any,
        .object { properties := [⟨"note", .string, false⟩, ⟨"id", .number, false⟩] }]⟩]

/-- The two names lead to each other. What is visited first puts the note before the identifier, which
has both of its types, and the record gives the key. -/
theorem entry_meets :
    ∃ merged, revisions.merge (.ref "Entry") = .shape merged ∧
      merged.properties.map (·.name) = ["note", "id"] ∧
      merged.index.map (·.key) = some .string ∧
      ∀ p ∈ merged.properties, p.name = "id" →
        p.ty.Same (.intersection [.number, .unionOf [.string, .number]]) := by
  obtain ⟨visited, order, reached, _, _, shapes⟩ := revisions.merge_meets (.ref "Entry")
  have leaves : visited = revisions.leaves (.ref "Entry") :=
    ((order _).mp (revisions.visits_leaves _)).symm
  have shaped (leaf : Ty) (inside : LeafOf revisions (.ref "Entry") leaf) :
      ∃ s, leaf.asShape? = some s := by
    have visitedLeaf := (reached leaf).mpr inside
    rw [leaves] at visitedLeaf
    have all : ∀ leaf ∈ revisions.leaves (.ref "Entry"), leaf.asShape?.isSome = true := by decide
    exact Option.isSome_iff_exists.mp (all leaf visitedLeaf)
  obtain ⟨merged, merges, slots, types⟩ := shapes shaped
  subst leaves
  refine ⟨merged, merges, ?_, ?_, fun p member named => ?_⟩
  · rw [slots.order]
    decide
  · rw [slots.key]
    rfl
  · have both := (types (by decide) (by decide) _ fun s => mem_shapes_iff).types p member
    rw [named] at both
    exact both

end AliasMap

end StructuralTypes
