import StructuralTypes.Proofs.Keyof.Steps
import StructuralTypes.Proofs.Merge.Meet

set_option autoImplicit false

namespace StructuralTypes

/-- A type has another one inside, with names opened. -/
inductive Encloses (aliases : AliasMap) : Ty → Ty → Prop
  | refl {ty : Ty} : Encloses aliases ty ty
  | child {ty child part : Ty} (member : child ∈ ty.children) (inside : Encloses aliases child part) :
    Encloses aliases ty part
  | named {name : String} {d : AliasDefinition} {part : Ty} (found : aliases.find? name = some d)
    (inside : Encloses aliases d.body part) : Encloses aliases (.ref name) part

theorem Encloses.trans {aliases : AliasMap} {a b c : Ty} (first : Encloses aliases a b)
    (second : Encloses aliases b c) : Encloses aliases a c := by
  induction first with
  | refl => exact second
  | child member _ ih => exact .child member (ih second)
  | named found _ ih => exact .named found (ih second)

/-- No name is met again inside of what it stands for. -/
def AliasMap.Nonrecursive (aliases : AliasMap) : Prop :=
  ∀ name d, aliases.find? name = some d → ¬ Encloses aliases d.body (.ref name)

/-- A type has at most the given number of levels, with all names opened. A name has those of what it
stands for. -/
inductive Nests (aliases : AliasMap) : Nat → Ty → Prop
  | node {levels : Nat} {ty : Ty} (unnamed : ty.refName? = none)
    (parts : ∀ child ∈ ty.children, Nests aliases levels child) : Nests aliases (levels + 1) ty
  | named {levels : Nat} {name : String} {d : AliasDefinition} (found : aliases.find? name = some d)
    (body : Nests aliases levels d.body) : Nests aliases levels (.ref name)
  | undeclared {levels : Nat} {name : String} (missing : aliases.find? name = none) :
    Nests aliases (levels + 1) (.ref name)

namespace Nests

variable {aliases : AliasMap} {levels more : Nat} {ty part : Ty} {tys : List Ty}

theorem mono (nests : Nests aliases levels ty) (fewer : levels ≤ more) : Nests aliases more ty := by
  induction nests generalizing more with
  | node unnamed _ ih =>
      obtain ⟨rest, rfl⟩ := Nat.exists_eq_add_of_lt fewer
      exact .node unnamed fun child member => ih child member (Nat.le_add_right _ _)
  | named found _ ih => exact .named found (ih fewer)
  | undeclared missing =>
      obtain ⟨rest, rfl⟩ := Nat.exists_eq_add_of_lt fewer
      exact .undeclared missing

theorem positive (nests : Nests aliases levels ty) : 0 < levels := by
  induction nests with
  | node => exact Nat.succ_pos _
  | named _ _ ih => exact ih
  | undeclared => exact Nat.succ_pos _

theorem child (nests : Nests aliases (levels + 1) ty) (member : part ∈ ty.children) :
    Nests aliases levels part := by
  cases nests with
  | node _ parts => exact parts part member
  | named => cases member
  | undeclared => cases member

theorem leaf (bare : ty.children = []) (unnamed : ty.refName? = none) :
    Nests aliases (levels + 1) ty := by
  refine .node unnamed ?_
  rw [bare]
  nofun

section Stages

theorem resolve (nests : Nests aliases levels ty) : Nests aliases levels (aliases.resolve ty) := by
  refine AliasMap.resolve_keeps (Nests aliases levels) (fun name d found named => ?_) nests
  cases named with
  | node unnamed => cases unnamed
  | named own body =>
      cases own.symm.trans found
      exact body
  | undeclared missing => cases missing.symm.trans found

theorem keyofClosed (levels : Nat) : aliases.KeyofClosed (Nests aliases (levels + 1)) where
  primitive _ := leaf rfl rfl
  literal _ := leaf rfl rfl
  subject _ nests := (nests.child (.head _)).mono (Nat.le_succ _)
  key _ _ nests := (nests.child (.head _)).mono (Nat.le_succ _)
  unionMember _ nests _ listed := (nests.child listed).mono (Nat.le_succ _)
  intersectionMember _ nests _ listed := (nests.child listed).mono (Nat.le_succ _)
  resolve _ := resolve

theorem of_known (known : AliasMap.Known (Nests aliases levels) ty) :
    Nests aliases (levels + 1) ty := by
  cases ty with
  | unionOf members => exact .node rfl known
  | _ => exact (known.of_single rfl).mono (Nat.le_succ _)

theorem concrete (nests : Nests aliases levels ty) : Nests aliases levels (aliases.concrete ty) := by
  have resolved := nests.resolve
  rw [AliasMap.concrete]
  split
  case h_1 subject found =>
    rw [found] at resolved
    obtain ⟨fewer, rfl⟩ := Nat.exists_eq_add_one.mpr resolved.positive
    have inner := resolved.child (.head _)
    obtain ⟨least, rfl⟩ := Nat.exists_eq_add_one.mpr inner.positive
    have closed : aliases.KeyofClosed (Nests aliases (least + 1)) := keyofClosed least
    exact resolve (of_known (closed.keyofSubject (closed.known inner)))
  case h_2 => exact resolved

/-- An optional slot may also hold `undefined`, which takes a level for the union. -/
theorem declared {property : Property Ty} (nests : Nests aliases levels property.ty) :
    Nests aliases (levels + 1) property.declared := by
  rw [Property.declared]
  split
  · obtain ⟨fewer, rfl⟩ := Nat.exists_eq_add_one.mpr nests.positive
    have closed : aliases.KeyofClosed (Nests aliases (fewer + 1)) := keyofClosed fewer
    refine of_known (closed.union (List.forall_mem_cons.mpr ⟨closed.known nests, ?_⟩))
    exact List.forall_mem_singleton.mpr (closed.known (closed.primitive .undefined))
  · exact nests.mono (Nat.le_succ _)

theorem intersectionMember (nests : Nests aliases levels ty) (listed : part ∈ ty.intersectionMembers) :
    Nests aliases levels part := by
  cases ty with
  | intersectionOf members =>
      obtain ⟨fewer, rfl⟩ := Nat.exists_eq_add_one.mpr nests.positive
      exact (nests.child listed).mono (Nat.le_succ _)
  | _ =>
      cases List.mem_singleton.mp listed
      exact nests

theorem intersection (each : ∀ ty ∈ tys, Nests aliases levels ty) :
    Nests aliases (levels + 1) (.intersection tys) := by
  have flat : ∀ m ∈ Ty.distinct (tys.flatMap Ty.intersectionMembers), Nests aliases levels m := by
    intro m member
    obtain ⟨ty, listed, part⟩ := List.mem_flatMap.mp (Ty.mem_of_mem_distinct member)
    exact (each ty listed).intersectionMember part
  rw [Ty.intersection_eq]
  split
  · exact leaf rfl rfl
  · split
    · exact leaf rfl rfl
    · match Ty.distinct (tys.flatMap Ty.intersectionMembers), flat with
      | [], _ => exact leaf rfl rfl
      | [only], flat => exact (flat only (.head _)).mono (Nat.le_succ _)
      | _ :: _ :: _, flat => exact .node rfl flat

theorem asShape {shape : Shape Ty} (nests : Nests aliases levels ty) (found : ty.asShape? = some shape) :
    Nests aliases levels (.object shape) := by
  cases ty with
  | object own =>
      cases found
      exact nests
  | record key value =>
      cases found
      obtain ⟨fewer, rfl⟩ := Nat.exists_eq_add_one.mpr nests.positive
      exact .node rfl fun child member => nests.child member
  | _ => cases found

/-- Equal types have equally many levels. -/
theorem of_same {other : Ty} (nests : Nests aliases levels ty) (wf : ty.WellFormed)
    (equal : ty.Same other) : Nests aliases levels other := by
  have names := AliasMap.refName?_same equal
  induction nests generalizing other with
  | node unnamed _ ih =>
      rw [unnamed] at names
      obtain ⟨parts, permuted, each⟩ := Ty.exists_perm_of_parts wf
        (fun child member part same => (wf.child member).of_same same) equal
      refine .node names.symm fun part member => ?_
      obtain ⟨child, inside, same⟩ := Ty.exists_same_of_perm permuted each member
      exact ih child inside (wf.child inside) same (AliasMap.refName?_same same)
  | named found body =>
      rw [AliasMap.eq_ref_of_refName? names.symm]
      exact .named found body
  | undeclared missing =>
      rw [AliasMap.eq_ref_of_refName? names.symm]
      exact .undeclared missing

theorem leafOf {leaf : Ty} (nests : Nests aliases levels ty) (inside : LeafOf aliases ty leaf) :
    Nests aliases levels leaf := by
  induction inside with
  | member listed _ ih => exact ih (nests.intersectionMember listed)
  | named _ _ ih => exact ih nests.resolve
  | stuck resolved => exact resolved ▸ nests.resolve
  | leaf => exact nests

theorem foldl_meet {shapes : List (Shape Ty)} (wf : ∀ s ∈ shapes, (Ty.object s).WellFormed)
    (each : ∀ s ∈ shapes, ∀ part ∈ (Ty.object s).children, Nests aliases levels part) :
    Nests aliases (levels + 2) (.object (shapes.foldl Shape.meet {})) := by
  have wfMerged := wellFormed_foldl_meet wf
  have meets := typesOf_foldl_meet wf fun s => Iff.rfl
  refine .node rfl (Ty.forall_mem_children_object (fun p member => ?_) fun i found => ⟨?_, ?_⟩)
  · have wfTypes : ∀ ty ∈ typesNamed p.name (shapes.flatMap (·.properties)), ty.WellFormed :=
      typesNamed_wellFormed (wellFormed_slots wf)
    have wfMeet := Ty.intersection_wellFormed wfTypes
    refine of_same (intersection fun ty listed => ?_) wfMeet
      (Ty.same_symm (wfMerged.property member) wfMeet (meets.types p member))
    obtain ⟨q, declared, _, rfl⟩ := mem_typesNamed.mp listed
    obtain ⟨s, inside, slot⟩ := List.mem_flatMap.mp declared
    exact each s inside _ (Ty.property_mem_children slot)
  · have keys := key_foldl_meet shapes
    rw [found] at keys
    obtain ⟨own, first, same⟩ := Option.map_eq_some_iff.mp keys.symm
    obtain ⟨s, inside, index⟩ := List.exists_of_findSome?_eq_some first
    have nests := each s inside _ (Ty.indexKey_mem_children index)
    rw [show own.key = i.key from same] at nests
    exact nests.mono (Nat.le_succ _)
  · have wfMeet := Ty.intersection_wellFormed (wellFormed_values wf)
    refine of_same (intersection fun ty listed => ?_) wfMeet
      (Ty.same_symm (wfMerged.indexValue found) wfMeet (meets.value i found))
    obtain ⟨own, declared, rfl⟩ := List.mem_map.mp listed
    obtain ⟨s, inside, index⟩ := List.mem_filterMap.mp declared
    exact each s inside _ (Ty.indexValue_mem_children index)

/-- Merging gives each slot an intersection of slots of the leaves. The level that this takes is the
one that the intersection of the leaves had. -/
theorem merge (wf : aliases.WellFormed) {members : List Ty} {merged : Shape Ty}
    (nests : Nests aliases levels (.intersectionOf members))
    (wfTy : (Ty.intersectionOf members).WellFormed)
    (merges : aliases.merge (.intersectionOf members) = .shape merged) :
    Nests aliases levels (.object merged) := by
  obtain ⟨fewer, rfl⟩ := Nat.exists_eq_add_one.mpr nests.positive
  obtain ⟨m, listed⟩ := List.exists_mem_of_length_pos (Nat.lt_of_lt_of_le Nat.two_pos wfTy.node.several)
  obtain ⟨least, rfl⟩ := Nat.exists_eq_add_one.mpr (nests.child listed).positive
  rw [merged_eq merges]
  refine foldl_meet (fun s visited => ?_) fun s visited part member => ?_
  · obtain ⟨leaf, inside, shaped⟩ := List.mem_filterMap.mp visited
    exact (AliasMap.leaves_wellFormed wf wfTy leaf inside).asShape shaped
  · obtain ⟨leaf, inside, shaped⟩ := AliasMap.mem_shapes_iff.mp visited
    cases inside with
    | member listed inside => exact (((nests.child listed).leafOf inside).asShape shaped).child member
    | leaf single => cases single

end Stages

end Nests

namespace AliasMap

variable {aliases : AliasMap} {ty : Ty}

section Levels

theorem exists_nests_all {tys : List Ty} (each : ∀ ty ∈ tys, ∃ levels, Nests aliases levels ty) :
    ∃ levels, ∀ ty ∈ tys, Nests aliases levels ty := by
  induction tys with
  | nil => exact ⟨0, nofun⟩
  | cons ty tys ih =>
      obtain ⟨first, nests⟩ := each ty (.head _)
      obtain ⟨rest, nestsAll⟩ := ih fun other later => each other (.tail _ later)
      refine ⟨max first rest, List.forall_mem_cons.mpr ⟨nests.mono (Nat.le_max_left _ _), ?_⟩⟩
      exact fun other later => (nestsAll other later).mono (Nat.le_max_right _ _)

/-- Each name that is opened inside of others is a further one, so there is an end to it. -/
theorem Nonrecursive.nests_of_opened (nonrecursive : aliases.Nonrecursive) (left : Nat) (ty : Ty)
    (seen : List String) (room : aliases.unseen seen ≤ left)
    (opened : ∀ name ∈ seen, ∃ d, aliases.find? name = some d ∧ Encloses aliases d.body ty) :
    ∃ levels, Nests aliases levels ty := by
  -- The outer induction is on the names that are left to open, the inner one on the type: going into
  -- a part opens no name.
  induction left using Nat.strongRecOn generalizing ty seen with
  | ind left outer =>
      induction ty using Ty.childrenInduction with
      | step ty inner =>
          have onward {part : Ty} (leads : Encloses aliases ty part) :
              ∀ name ∈ seen, ∃ d, aliases.find? name = some d ∧ Encloses aliases d.body part := by
            intro name known
            obtain ⟨d, found, inside⟩ := opened name known
            exact ⟨d, found, inside.trans leads⟩
          cases named : ty.refName? with
          | none =>
              obtain ⟨levels, nests⟩ := exists_nests_all fun child member =>
                inner child member (onward (.child member .refl))
              exact ⟨levels + 1, .node named nests⟩
          | some name =>
              obtain rfl := eq_ref_of_refName? named
              cases found : aliases.find? name with
              | none => exact ⟨1, .undeclared found⟩
              | some d =>
                  have new : name ∉ seen := by
                    intro known
                    obtain ⟨own, declared, inside⟩ := opened name known
                    exact nonrecursive name own declared inside
                  have declared : aliases.contains name = true := by simp [contains, found]
                  have fewer := unseen_cons_lt declared new
                  obtain ⟨levels, nests⟩ := outer _ (Nat.lt_of_lt_of_le fewer room) d.body
                    (name :: seen) (Nat.le_refl _)
                    (List.forall_mem_cons.mpr ⟨⟨d, found, .refl⟩, onward (.named found .refl)⟩)
                  exact ⟨levels, .named found nests⟩

/-- Without recursion every type has finitely many levels. -/
theorem Nonrecursive.exists_nests (nonrecursive : aliases.Nonrecursive) (ty : Ty) :
    ∃ levels, Nests aliases levels ty :=
  nonrecursive.nests_of_opened _ ty [] (Nat.le_refl _) nofun

end Levels

section Ranks

/-- The names that a type mentions come before the given rank. -/
def MentionsBelow (rank : String → Nat) (bound : Nat) (ty : Ty) : Prop :=
  ty.Throughout fun part => ∀ name ∈ part.refName?, rank name < bound

instance (rank : String → Nat) (bound : Nat) : Decidable (MentionsBelow rank bound ty) :=
  inferInstanceAs (Decidable (ty.Throughout _))

/-- There is no recursion where each definition mentions names of a lower rank only. -/
theorem nonrecursive_of_rank (rank : String → Nat)
    (lower : ∀ d ∈ aliases.definitions, MentionsBelow rank (rank d.name) d.body) :
    aliases.Nonrecursive := by
  have body {name : String} {d : AliasDefinition} (found : aliases.find? name = some d) :
      MentionsBelow rank (rank name) d.body := by
    have named : d.name = name := by simpa using List.find?_some found
    exact named ▸ lower d (List.mem_of_find?_eq_some found)
  have reached {bound : Nat} {ty part : Ty} (leads : Encloses aliases ty part)
      (below : MentionsBelow rank bound ty) :
      ∀ name ∈ part.refName?, rank name < bound := by
    induction leads generalizing bound with
    | refl => exact below.here
    | child member _ ih => exact ih (below.child member)
    | named found _ ih =>
        intro other mentioned
        exact Nat.lt_trans (ih (body found) other mentioned) (below.here _ rfl)
  intro name d found leads
  exact Nat.lt_irrefl _ (reached leads (body found) name rfl)

end Ranks

end AliasMap

end StructuralTypes
