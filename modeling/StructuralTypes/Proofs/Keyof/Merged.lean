import StructuralTypes.Proofs.Compatibility.Immediate
import StructuralTypes.Proofs.Keyof.Steps
import StructuralTypes.Proofs.Merge.Meet
import StructuralTypes.Proofs.Narrowing.Partition
import StructuralTypes.Proofs.Ty.Regrouping

/-!
Evaluation of keys goes into each nested intersection on its own, while merging remembers the names
that it has seen. Where no name leads back to itself the two see the same objects.
-/

set_option autoImplicit false

namespace StructuralTypes

/-- What a type is made of: itself, the members of an intersection and what names stand for, at any
depth. -/
inductive LeadsTo (aliases : AliasMap) : Ty → Ty → Prop
  | refl {ty : Ty} : LeadsTo aliases ty ty
  | member {members : List Ty} {m part : Ty} (listed : m ∈ members) (inside : LeadsTo aliases m part) :
    LeadsTo aliases (.intersectionOf members) part
  | named {name : String} {d : AliasDefinition} {part : Ty} (found : aliases.find? name = some d)
    (inside : LeadsTo aliases d.body part) : LeadsTo aliases (.ref name) part

theorem LeadsTo.trans {aliases : AliasMap} {a b c : Ty} (first : LeadsTo aliases a b)
    (second : LeadsTo aliases b c) : LeadsTo aliases a c := by
  induction first with
  | refl => exact second
  | member listed _ ih => exact .member listed (ih second)
  | named found _ ih => exact .named found (ih second)

/-- There is an end to opening names and going into members of intersections. -/
inductive Unfolds (aliases : AliasMap) : Ty → Prop
  | members {members : List Ty} (each : ∀ m ∈ members, Unfolds aliases m) :
    Unfolds aliases (.intersectionOf members)
  | named {name : String} (resolved : (aliases.resolve (.ref name)).refName? = none)
    (inside : Unfolds aliases (aliases.resolve (.ref name))) : Unfolds aliases (.ref name)
  | stuck {name other : String} (resolved : aliases.resolve (.ref name) = .ref other) :
    Unfolds aliases (.ref name)
  | leaf {ty : Ty} (single : ty.isIntersection = false) (unnamed : ty.refName? = none) :
    Unfolds aliases ty

namespace AliasMap

/-- The body of a name is made of the name itself. -/
def Recursive (aliases : AliasMap) (name : String) : Prop :=
  ∃ d, aliases.find? name = some d ∧ LeadsTo aliases d.body (.ref name)

variable {aliases : AliasMap} {ty : Ty}

section Recursion

theorem leadsTo_follow {left : Nat} {chain : List String} {ty resolved : Ty}
    (ended : aliases.follow left chain ty = .ok resolved) : LeadsTo aliases ty resolved := by
  fun_induction follow aliases left chain ty with
  | case1 =>
      cases ended
      exact .refl
  | case2 => cases ended
  | case3 => cases ended
  | case4 chain name d found new left ih => exact .named found (ih ended)
  | case5 =>
      cases ended
      exact .refl

/-- What a name stands for is reached from its body. -/
theorem exists_leadsTo_resolve {name : String}
    (resolved : (aliases.resolve (.ref name)).refName? = none) :
    ∃ d, aliases.find? name = some d ∧ LeadsTo aliases d.body (aliases.resolve (.ref name)) := by
  cases ended : aliases.tryResolve (.ref name) with
  | error e =>
      rw [resolve, ended] at resolved
      cases resolved
  | ok ty =>
      have leads := leadsTo_follow ended
      rw [resolve, ended] at resolved ⊢
      cases leads with
      | refl => cases resolved
      | named found inside => exact ⟨_, found, inside⟩

end Recursion

section Unfolding

/-- Every name that was opened on the way to a type leads to it. -/
def Opening (aliases : AliasMap) (seen : List String) (ty : Ty) : Prop :=
  ∀ name ∈ seen, ∃ d, aliases.find? name = some d ∧ LeadsTo aliases d.body ty

theorem Opening.step {seen : List String} {part : Ty} (opening : aliases.Opening seen ty)
    (leads : LeadsTo aliases ty part) : aliases.Opening seen part := by
  intro name known
  obtain ⟨d, found, inside⟩ := opening name known
  exact ⟨d, found, inside.trans leads⟩

/-- Without recursive names each name that is opened inside of others is a further one, so there is
an end to it. -/
theorem unfolds_of_opening (acyclic : ∀ name, ¬ aliases.Recursive name) (left : Nat) (ty : Ty)
    (seen : List String) (room : aliases.unseen seen ≤ left) (opening : aliases.Opening seen ty) :
    Unfolds aliases ty := by
  -- The outer induction is on the names that are left to open, the inner one on the type: going into
  -- an intersection opens no name.
  induction left using Nat.strongRecOn generalizing ty seen with
  | ind left outer =>
      induction ty using Ty.childrenInduction with
      | step ty inner =>
          cases ty with
          | intersectionOf members =>
              exact .members fun m listed => inner m listed (opening.step (.member listed .refl))
          | ref name =>
              cases resolved : (aliases.resolve (.ref name)).refName? with
              | some other => exact .stuck (eq_ref_of_refName? resolved)
              | none =>
                  obtain ⟨d, found, leads⟩ := exists_leadsTo_resolve resolved
                  have new : name ∉ seen := fun known => acyclic name (opening name known)
                  have declared : aliases.contains name = true := by simp [contains, found]
                  have fewer := unseen_cons_lt declared new
                  refine .named resolved (outer _ (Nat.lt_of_lt_of_le fewer room) _ (name :: seen)
                    (Nat.le_refl _) ?_)
                  refine List.forall_mem_cons.mpr ⟨⟨d, found, leads⟩, ?_⟩
                  exact opening.step (.named found leads)
          | _ => exact .leaf rfl rfl

theorem unfolds (acyclic : ∀ name, ¬ aliases.Recursive name) (ty : Ty) : Unfolds aliases ty :=
  unfolds_of_opening acyclic _ ty [] (Nat.le_refl _) nofun

end Unfolding

section Evaluation

/-- The keys that are found at last are those that evaluation finds with its own number of steps. -/
theorem keyofSubject?_of_found {steps : Nat} {keys : Ty}
    (found : aliases.keyofSubject? steps ty = some keys) {more : Nat}
    (enough : steps ≤ more ∨ aliases.keyofSteps ty ≤ more) :
    aliases.keyofSubject? more ty = some keys := by
  have closed : aliases.KeyofClosed fun _ => True := by constructor <;> simp
  have known : Known (fun _ => True) ty := fun _ _ => trivial
  have later {n : Nat} (fewer : steps ≤ n) : aliases.keyofSubject? n ty = some keys :=
    keyofSubject?_extends closed (fun _ _ => rfl) fewer known found
  rcases enough with fewer | enough
  · exact later fewer
  · rw [keyofSubject?_of_le enough, ← keyofSubject?_of_le (Nat.le_max_right steps _)]
    exact later (Nat.le_max_left _ _)

/-- A name is evaluated as what it stands for. -/
theorem keyofSubject?_resolve (unnamed : (aliases.resolve ty).refName? = none) (steps : Nat) :
    aliases.keyofSubject? steps (aliases.resolve ty) = aliases.keyofSubject? steps ty := by
  cases steps with
  | zero => rfl
  | succ steps =>
      rw [keyofSubject?, keyofSubject?, keyofStep?_eq, keyofStep?_eq, keyofOperand?, keyofOperand?,
        resolve_of_refName?_eq_none unnamed]

end Evaluation

section Names

/-- The property names of the objects that a type is made of. -/
def leafNames (aliases : AliasMap) (ty : Ty) : List String :=
  (aliases.leaves ty).flatMap Ty.propertyNames

theorem mem_leafNames {name : String} : name ∈ aliases.leafNames ty ↔
    ∃ leaf, LeafOf aliases ty leaf ∧ name ∈ leaf.propertyNames := by
  simp only [leafNames, List.mem_flatMap, mem_leaves_iff]

theorem mem_leafNames_intersectionOf {members : List Ty} {name : String} :
    name ∈ aliases.leafNames (.intersectionOf members) ↔
      ∃ m ∈ members, name ∈ aliases.leafNames m := by
  simp only [mem_leafNames]
  constructor
  · rintro ⟨leaf, inside, named⟩
    cases inside with
    | member listed inside => exact ⟨_, listed, leaf, inside, named⟩
    | leaf single => cases single
  · rintro ⟨m, listed, leaf, inside, named⟩
    exact ⟨leaf, .member listed inside, named⟩

theorem leafOf_resolve (unnamed : (aliases.resolve ty).refName? = none) {leaf : Ty} :
    LeafOf aliases (aliases.resolve ty) leaf ↔ LeafOf aliases ty leaf := by
  cases ty with
  | ref name =>
      constructor
      · exact .named unnamed
      · intro inside
        cases inside with
        | named _ inside => exact inside
        | stuck resolved =>
            rw [resolved] at unnamed
            cases unnamed
        | leaf _ impossible => cases impossible
  | _ => rw [resolve_of_refName?_eq_none rfl]

theorem mem_leafNames_resolve (unnamed : (aliases.resolve ty).refName? = none) {name : String} :
    name ∈ aliases.leafNames (aliases.resolve ty) ↔ name ∈ aliases.leafNames ty := by
  simp only [mem_leafNames, leafOf_resolve unnamed]

theorem mem_leafNames_object {shape : Shape Ty} {name : String} :
    name ∈ aliases.leafNames (.object shape) ↔ name ∈ shape.properties.map (·.name) := by
  rw [mem_leafNames]
  constructor
  · rintro ⟨leaf, inside, named⟩
    cases inside with
    | leaf => exact named
  · intro named
    exact ⟨_, .leaf rfl rfl, named⟩

/-- A union of unions of names is the union of all names. -/
theorem union_ofNames (lists : List (List String)) :
    Ty.Same (.union (lists.map Ty.ofNames)) (.ofNames lists.flatten) := by
  have wf : ∀ names ∈ lists, ∀ ty ∈ names.map fun name => Ty.literal (.text name), ty.WellFormed :=
    fun names _ => List.forall_mem_map.mpr fun name _ => .literal (.text name)
  rw [Ty.ofNames, List.map_flatten, ← List.flatMap_def]
  exact Ty.union_flatMap wf

end Names

section Objects

/-- Everything that a type is made of is an object. -/
def MadeOfObjects (aliases : AliasMap) (ty : Ty) : Prop :=
  ∀ leaf, LeafOf aliases ty leaf → leaf.isObject = true

/-- A type that is made of objects stands for an object or for an intersection. -/
theorem MadeOfObjects.resolve (objects : aliases.MadeOfObjects ty) :
    (∃ shape, aliases.resolve ty = .object shape) ∨
      ∃ members, aliases.resolve ty = .intersectionOf members := by
  have unnamed : (aliases.resolve ty).refName? = none := by
    cases named : (aliases.resolve ty).refName? with
    | none => rfl
    | some other =>
        have ends := eq_ref_of_refName? named
        cases ty with
        | ref name => cases objects _ (.stuck ends)
        | _ =>
            rw [resolve_of_refName?_eq_none rfl] at ends
            cases ends
  cases resolved : aliases.resolve ty with
  | object shape => exact Or.inl ⟨shape, rfl⟩
  | intersectionOf members => exact Or.inr ⟨members, rfl⟩
  | ref name =>
      rw [resolved] at unnamed
      cases unnamed
  | _ =>
      have itself := (leafOf_resolve unnamed).mp (.leaf (by rw [resolved]; rfl) unnamed)
      have impossible := objects _ itself
      rw [resolved] at impossible
      cases impossible

theorem MadeOfObjects.unnamed (objects : aliases.MadeOfObjects ty) :
    (aliases.resolve ty).refName? = none := by
  rcases objects.resolve with ⟨shape, resolved⟩ | ⟨members, resolved⟩ <;> rw [resolved] <;> rfl

theorem MadeOfObjects.operand (objects : aliases.MadeOfObjects ty) (keys : Ty → Option Ty) :
    aliases.keyofOperand? keys ty = some (aliases.resolve ty) := by
  rw [keyofOperand?]
  rcases objects.resolve with ⟨shape, resolved⟩ | ⟨members, resolved⟩ <;> rw [resolved]

/-- Evaluation of the keys ends with a union of the given names. -/
def HasKeys (aliases : AliasMap) (ty : Ty) (names : List String) : Prop :=
  ∃ keys, aliases.keyofSubject? (aliases.keyofSteps ty) ty = some keys ∧ keys.WellFormed ∧
    keys.Same (.ofNames names)

theorem hasKeys_of_found {steps : Nat} {keys : Ty} {names : List String}
    (found : aliases.keyofSubject? steps ty = some keys) (wf : keys.WellFormed)
    (same : keys.Same (.ofNames names)) : aliases.HasKeys ty names :=
  ⟨keys, keyofSubject?_of_found found (Or.inr (Nat.le_refl _)), wf, same⟩

theorem HasKeys.congr {names others : List String} (has : aliases.HasKeys ty names)
    (agree : ∀ name, name ∈ names ↔ name ∈ others) : aliases.HasKeys ty others := by
  obtain ⟨keys, found, wf, same⟩ := has
  refine ⟨keys, found, wf, ?_⟩
  exact Ty.same_trans wf (ofNames_wellFormed _) (ofNames_wellFormed _) same (Ty.ofNames_same agree)

theorem hasKeys_object (shape : Shape Ty) :
    aliases.HasKeys (.object shape) (shape.properties.map (·.name)) := by
  have found : aliases.keyofSubject? 1 (.object shape) =
      some (.ofNames (shape.properties.map (·.name))) := by
    rw [keyofSubject?, keyofStep?_eq, keyofOperand?, resolve_of_refName?_eq_none rfl]
    rfl
  exact hasKeys_of_found found (ofNames_wellFormed _) (Ty.same_self _)

theorem HasKeys.of_resolve {names : List String} (unnamed : (aliases.resolve ty).refName? = none)
    (has : aliases.HasKeys (aliases.resolve ty) names) : aliases.HasKeys ty names := by
  obtain ⟨keys, found, wf, same⟩ := has
  rw [keyofSubject?_resolve unnamed] at found
  exact hasKeys_of_found found wf same

theorem mapM_eq_map {f : Ty → Option Ty} {g : Ty → Ty} {tys : List Ty}
    (each : ∀ ty ∈ tys, f ty = some (g ty)) : tys.mapM f = some (tys.map g) := by
  induction tys with
  | nil => rfl
  | cons ty tys ih =>
      obtain ⟨first, rest⟩ := List.forall_mem_cons.mp each
      rw [List.mapM_cons, first, ih rest]
      rfl

section Intersections

variable {members : List Ty} (objects : ∀ m ∈ members, aliases.MadeOfObjects m)

/-- The members that stand for intersections of their own. -/
def nested (aliases : AliasMap) (members : List Ty) : List Ty :=
  members.filter fun m => !(aliases.resolve m).isObject

include objects

/-- A member is an object, whose names are taken directly, or it is nested. -/
theorem mem_leafNames_member {m : Ty} (listed : m ∈ members) {name : String} :
    name ∈ aliases.leafNames m ↔ name ∈ (aliases.resolve m).propertyNames ∨
      m ∈ aliases.nested members ∧ name ∈ aliases.leafNames m := by
  rw [← mem_leafNames_resolve (objects m listed).unnamed, nested, List.mem_filter]
  rcases (objects m listed).resolve with ⟨shape, resolved⟩ | ⟨others, resolved⟩
  · simp [resolved, mem_leafNames_object, Ty.propertyNames, Ty.isObject]
  · simp [resolved, listed, Ty.propertyNames, Ty.isObject]

/-- The names of the direct members and those of the nested ones are the names of all. -/
theorem mem_joinedNames {name : String} :
    name ∈ (((members.map aliases.resolve).flatMap Ty.propertyNames).eraseDups ::
        (aliases.nested members).map aliases.leafNames).flatten ↔
      name ∈ aliases.leafNames (.intersectionOf members) := by
  simp only [List.flatten_cons, List.mem_append, List.mem_eraseDups, List.mem_flatMap, List.mem_map,
    exists_exists_and_eq_and, List.mem_flatten, mem_leafNames_intersectionOf]
  constructor
  · rintro (⟨m, listed, named⟩ | ⟨m, inside, named⟩)
    · exact ⟨m, listed, (mem_leafNames_member objects listed).mpr (Or.inl named)⟩
    · exact ⟨m, List.mem_of_mem_filter inside, named⟩
  · rintro ⟨m, listed, named⟩
    rcases (mem_leafNames_member objects listed).mp named with direct | ⟨inside, _⟩
    · exact Or.inl ⟨m, listed, direct⟩
    · exact Or.inr ⟨m, inside, named⟩

theorem keyofSubject?_intersectionOf {steps : Nat} {keysOf : Ty → Ty}
    (found : ∀ m ∈ members, aliases.keyofSubject? steps (aliases.resolve m) = some (keysOf m)) :
    aliases.keyofSubject? (steps + 1) (.intersectionOf members) =
      some (.union (.ofNames ((members.map aliases.resolve).flatMap Ty.propertyNames).eraseDups ::
        (aliases.nested members).map keysOf)) := by
  have operands : members.mapM (aliases.keyofOperand? (aliases.keyofSubject? steps)) =
      some (members.map aliases.resolve) :=
    mapM_eq_map fun m listed => (objects m listed).operand _
  have others : ((members.map aliases.resolve).filter fun ty => !ty.isObject).mapM
      (aliases.keyofSubject? steps) = some ((aliases.nested members).map keysOf) := by
    rw [List.filter_map, List.mapM_map]
    exact mapM_eq_map fun m inside => found m (List.mem_of_mem_filter inside)
  rw [keyofSubject?, keyofStep?_eq, keyofOperand?, resolve_of_refName?_eq_none rfl]
  show (members.mapM (aliases.keyofOperand? (aliases.keyofSubject? steps))).bind _ = _
  rw [operands, Option.bind_some, joinedKeys?, others]
  rfl

/-- The keys of an intersection are those of all its members. -/
theorem hasKeys_intersectionOf
    (each : ∀ m ∈ members, aliases.HasKeys m (aliases.leafNames m)) :
    aliases.HasKeys (.intersectionOf members) (aliases.leafNames (.intersectionOf members)) := by
  choose! keysOf evaluated wfKeys sameKeys using each
  have found (m : Ty) (listed : m ∈ members) :
      aliases.keyofSubject? (aliases.keyofSteps (.intersectionOf members)) (aliases.resolve m) =
        some (keysOf m) := by
    have smaller : m.size < (Ty.intersectionOf members).size := Ty.size_child_lt listed
    rw [keyofSubject?_resolve (objects m listed).unnamed]
    refine keyofSubject?_of_found (evaluated m listed) (Or.inl ?_)
    simp only [keyofSteps]
    omega
  have joined := keyofSubject?_intersectionOf objects found
  -- The names of the direct members come first, as one group, whatever their places.
  let names := ((members.map aliases.resolve).flatMap Ty.propertyNames).eraseDups
  let lists := names :: (aliases.nested members).map aliases.leafNames
  have wfOthers : ∀ ty ∈ Ty.ofNames names :: (aliases.nested members).map keysOf, ty.WellFormed := by
    refine List.forall_mem_cons.mpr ⟨ofNames_wellFormed _, List.forall_mem_map.mpr fun m inside => ?_⟩
    exact wfKeys m (List.mem_of_mem_filter inside)
  have wfLists : ∀ ty ∈ lists.map Ty.ofNames, ty.WellFormed :=
    List.forall_mem_map.mpr fun names _ => ofNames_wellFormed names
  have pairs : List.Forall₂ Ty.Same (Ty.ofNames names :: (aliases.nested members).map keysOf)
      (lists.map Ty.ofNames) := by
    refine .cons (Ty.same_self _) ?_
    rw [List.map_map, List.forall₂_map_left_iff, List.forall₂_map_right_iff]
    exact List.forall₂_same.mpr fun m inside => sameKeys m (List.mem_of_mem_filter inside)
  have grouped := Ty.union_same wfOthers wfLists (.of_forall₂ pairs)
  have wfJoined := Ty.union_wellFormed wfOthers
  have all := Ty.same_trans wfJoined (Ty.union_wellFormed wfLists) (ofNames_wellFormed _) grouped
    (union_ofNames lists)
  exact (hasKeys_of_found joined wfJoined all).congr fun name => mem_joinedNames objects

end Intersections

theorem hasKeys_leafNames (unfolds : Unfolds aliases ty) (objects : aliases.MadeOfObjects ty) :
    aliases.HasKeys ty (aliases.leafNames ty) := by
  induction unfolds with
  | members _ ih =>
      have below : ∀ m ∈ _, aliases.MadeOfObjects m := fun m listed leaf inside =>
        objects leaf (.member listed inside)
      exact hasKeys_intersectionOf below fun m listed => ih m listed (below m listed)
  | named resolved _ ih =>
      have has := ih fun leaf inside => objects leaf ((leafOf_resolve resolved).mp inside)
      exact (has.of_resolve resolved).congr fun name => mem_leafNames_resolve resolved
  | stuck resolved => cases objects _ (.stuck resolved)
  | @leaf ty single unnamed =>
      cases ty with
      | object shape => exact (hasKeys_object shape).congr fun name => mem_leafNames_object.symm
      | _ => cases objects _ (.leaf single unnamed)

end Objects

end AliasMap

namespace Ty

variable {names : List String} {m keys : Ty}

theorem eq_of_same_text {name : String} (same : m.Same (literal (.text name))) :
    m = literal (.text name) := by
  cases m with
  | literal l =>
      cases l with
      | text other => rw [eq_of_beq (show (other == name) = true from same)]
      | _ => cases same
  | _ => cases same

theorem mem_ofNames :
    m ∈ (ofNames names).inhabitedMembers ↔ ∃ name ∈ names, m = literal (.text name) := by
  let texts := names.map fun name => literal (.text name)
  have wf : ∀ ty ∈ texts, ty.WellFormed := List.forall_mem_map.mpr fun name _ => .literal (.text name)
  have flat : texts.flatMap unionMembers = texts :=
    flatMap_unionMembers (List.forall_mem_map.mpr fun name _ => rfl)
  have proper : (union texts).isAny = false := by
    rw [isAny_union_eq_false_iff, flat]
    exact List.forall_mem_map.mpr fun name _ => rfl
  show m ∈ (union texts).inhabitedMembers ↔ _
  rw [inhabitedMembers_union wf proper, mem_unionParts_iff, flat]
  constructor
  · rintro ⟨kept, _⟩
    obtain ⟨name, listed, rfl⟩ := List.mem_map.mp (mem_of_mem_distinct kept)
    exact ⟨name, listed, rfl⟩
  · rintro ⟨name, listed, rfl⟩
    obtain ⟨kept, inside, same⟩ := (distinct_sameSet texts).back _ (List.mem_map_of_mem listed)
    cases eq_of_same_text same
    refine ⟨inside, rfl, ?_⟩
    simp [texts, isAbsorbed, primitive?]

/-- A type that equals a union of names has these names as its members. -/
theorem mem_of_same_ofNames (wf : keys.WellFormed) (same : keys.Same (ofNames names)) :
    m ∈ keys.inhabitedMembers ↔ ∃ name ∈ names, m = literal (.text name) := by
  have set : SameSet keys.inhabitedMembers (ofNames names).inhabitedMembers :=
    (unionMembers_same wf (AliasMap.ofNames_wellFormed names) same).filter fun a b equal => by
      rw [isNever_same equal]
  constructor
  · intro member
    obtain ⟨n, inside, equal⟩ := set.forth m member
    obtain ⟨name, listed, rfl⟩ := mem_ofNames.mp inside
    exact ⟨name, listed, eq_of_same_text equal⟩
  · rintro ⟨name, listed, rfl⟩
    obtain ⟨n, inside, equal⟩ := set.back _ (mem_ofNames.mpr ⟨name, listed, rfl⟩)
    cases eq_of_same_text equal
    exact inside

theorem refName?_of_same_ofNames (wf : keys.WellFormed) (same : keys.Same (ofNames names)) :
    keys.refName? = none := by
  cases keys with
  | ref name =>
      have itself : ref name ∈ (ref name).inhabitedMembers := .head _
      obtain ⟨_, _, impossible⟩ := (mem_of_same_ofNames wf same).mp itself
      cases impossible
  | _ => rfl

theorem propertyNames_of_asShape? {ty : Ty} {shape : Shape Ty} (shaped : ty.asShape? = some shape) :
    ty.propertyNames = shape.properties.map (·.name) := by
  cases ty <;> cases shaped <;> rfl

end Ty

namespace AliasMap

variable {aliases : AliasMap} {ty : Ty} {merged : Shape Ty}

section Merging

variable (merges : aliases.merge ty = .shape merged)

include merges

theorem madeOfObjects_of_merge (noRecord : ∀ key value, ¬ LeafOf aliases ty (.record key value)) :
    aliases.MadeOfObjects ty := by
  intro leaf inside
  obtain ⟨shape, shaped⟩ := shaped_of_merge merges leaf (mem_leaves_iff.mpr inside)
  cases leaf with
  | object own => rfl
  | record key value => exact absurd inside (noRecord key value)
  | _ => cases shaped

/-- The merged properties have the names of all leaves. -/
theorem mem_mergedNames {name : String} :
    name ∈ merged.properties.map (·.name) ↔ name ∈ aliases.leafNames ty := by
  rw [merged_eq merges, (slotsOf_foldl_meet _).order, List.mem_eraseDups, leafNames,
    List.map_flatMap, List.mem_flatMap, List.mem_flatMap]
  constructor
  · rintro ⟨shape, listed, named⟩
    obtain ⟨leaf, visited, shaped⟩ := List.mem_filterMap.mp listed
    rw [← Ty.propertyNames_of_asShape? shaped] at named
    exact ⟨leaf, visited, named⟩
  · rintro ⟨leaf, visited, named⟩
    obtain ⟨shape, shaped⟩ := shaped_of_merge merges leaf visited
    rw [Ty.propertyNames_of_asShape? shaped] at named
    exact ⟨shape, List.mem_filterMap.mpr ⟨leaf, visited, shaped⟩, named⟩

end Merging

end AliasMap

/-- A `keyof` stands for the keys that are found. -/
theorem AliasMap.HasKeys.concrete {aliases : AliasMap} {ty : Ty} {names : List String}
    (has : aliases.HasKeys ty names) :
    (aliases.concrete (.keyof ty)).WellFormed ∧ (aliases.concrete (.keyof ty)).Same (.ofNames names) := by
  obtain ⟨keys, found, wf, same⟩ := has
  have evaluated : aliases.concrete (.keyof ty) = keys := by
    rw [AliasMap.concrete, resolve_of_refName?_eq_none rfl]
    simp only [keyofSubject, found, Option.getD_some]
    exact resolve_of_refName?_eq_none (Ty.refName?_of_same_ofNames wf same)
  rw [evaluated]
  exact ⟨wf, same⟩

namespace Context

variable (ctx : Context) {ty : Ty} {names : List String}

/-- Where keys are names, a text is accepted if it is one of them. -/
theorem compatible_keyof (deep : 0 < ctx.options.maxDepth) (has : ctx.aliases.HasKeys ty names)
    (s : String) : (ctx.compatible (.literal (.text s)) (.keyof ty)).value = true ↔ s ∈ names := by
  obtain ⟨wf, same⟩ := has.concrete
  have members {m : Ty} : m ∈ (ctx.aliases.concrete (.keyof ty)).inhabitedMembers ↔
      ∃ name ∈ names, m = .literal (.text name) := Ty.mem_of_same_ofNames wf same
  cases isNever : (ctx.aliases.concrete (.keyof ty)).isNever with
  | true =>
      have nothing := (isNever_iff _).mp isNever
      have settled : (Query.concrete ⟨.literal (.text s), .keyof ty⟩ ctx.aliases).settled? =
          some false := by
        rw [Query.concrete, nothing, concrete_literal]
        rfl
      rw [ctx.compatible_of_settled settled]
      constructor
      · nofun
      · intro listed
        have member := members.mpr ⟨s, listed, rfl⟩
        rw [nothing] at member
        cases member
  | false =>
      rw [wf.inhabitedMembers_eq isNever] at members
      have literals : ∀ m ∈ (ctx.aliases.concrete (.keyof ty)).unionMembers, m.isLiteral = true := by
        intro m member
        obtain ⟨name, _, rfl⟩ := members.mp member
        rfl
      rw [ctx.compatible_literal_iff deep literals, Ty.isAmong_iff]
      constructor
      · rintro ⟨m, member, equal⟩
        rw [Ty.eq_of_same_text equal] at member
        obtain ⟨name, listed, equal⟩ := members.mp member
        cases equal
        exact listed
      · intro listed
        exact ⟨_, members.mpr ⟨s, listed, rfl⟩, Ty.same_self _⟩

end Context

namespace AliasMap

/-- Without recursive names and records, the keys of a type are the names of its merged properties,
and these are what its `keyof` accepts. -/
theorem keys_of_merged (aliases : AliasMap) (acyclic : ∀ name, ¬ aliases.Recursive name) (ty : Ty)
    (merged : Shape Ty) (merges : aliases.merge ty = .shape merged)
    (noRecord : ∀ key value, ¬ LeafOf aliases ty (.record key value)) :
    let names := merged.properties.map (·.name)
    (∃ keys, aliases.keyofSubject? (aliases.keyofSteps ty) ty = some keys) ∧
      (aliases.keyofSubject ty).Same (.ofNames names) ∧
      ∀ s : String, (Context.compatible { aliases := aliases } (.literal (.text s)) (.keyof ty)).value =
        true ↔ s ∈ names := by
  intro names
  have has : aliases.HasKeys ty names :=
    (hasKeys_leafNames (unfolds acyclic ty) (madeOfObjects_of_merge merges noRecord)).congr
      fun name => (mem_mergedNames merges).symm
  obtain ⟨keys, found, wf, same⟩ := has
  refine ⟨⟨keys, found⟩, ?_, fun s => ?_⟩
  · rw [keyofSubject, found]
    exact same
  · exact Context.compatible_keyof { aliases := aliases } (Nat.succ_pos 99) ⟨keys, found, wf, same⟩ s

/-- A node refers to its like by a property, which is no recursion here, and a label is put on it. -/
def chains : AliasMap where
  definitions :=
    [⟨"Node", [], .object { properties := [⟨"value", .number, false⟩, ⟨"next", .ref "Node", true⟩] }⟩,
      ⟨"Labelled", [], .intersectionOf [.ref "Node",
        .object { properties := [⟨"label", .string, false⟩] }]⟩]

/-- A labelled node with a rank reaches the node twice and has the names of all three objects. -/
theorem chain_keys :
    let ranked : Ty := .intersectionOf [.ref "Labelled", .ref "Node",
      .object { properties := [⟨"rank", .number, false⟩, ⟨"value", .any, false⟩] }]
    let accepts := fun s : String =>
      (Context.compatible { aliases := chains } (.literal (.text s)) (.keyof ranked)).value
    (chains.keyofSubject ranked).Same (.ofNames ["value", "next", "label", "rank"]) ∧
      accepts "next" = true ∧ accepts "size" = false := by
  intro ranked accepts
  have acyclic (name : String) : ¬ chains.Recursive name := by
    rintro ⟨d, found, leads⟩
    have named : d.name = name := by simpa using List.find?_some found
    have declared := List.mem_of_find?_eq_some found
    simp only [chains, List.mem_cons, List.not_mem_nil, or_false] at declared
    rcases declared with rfl | rfl
    · cases leads
    · cases leads with
      | member here inside =>
          rcases List.mem_pair.mp here with rfl | rfl
          · cases inside with
            | refl => exact absurd named (by decide)
            | named opened inside =>
                cases opened
                cases inside
          · cases inside
  have noRecord (key value : Ty) : ¬ LeafOf chains ranked (.record key value) := by
    intro inside
    have all : ∀ leaf ∈ chains.leaves ranked, leaf.isObject = true := by decide
    cases all _ (mem_leaves_iff.mpr inside)
  obtain ⟨_, keys, listed⟩ := chains.keys_of_merged acyclic ranked _ rfl noRecord
  refine ⟨keys, (listed "next").mpr (by decide), ?_⟩
  rw [Bool.eq_false_iff]
  exact fun accepted => absurd ((listed "size").mp accepted) (by decide)

end AliasMap

end StructuralTypes
