import Mathlib.Data.List.Nodup
import StructuralTypes.Keyof
import StructuralTypes.Merge
import StructuralTypes.Proofs.NormalForm.Types

set_option autoImplicit false

namespace StructuralTypes

/-- Every definition has a well-formed body. -/
def AliasMap.WellFormed (aliases : AliasMap) : Prop :=
  ∀ d ∈ aliases.definitions, d.body.WellFormed

instance (aliases : AliasMap) : Decidable aliases.WellFormed :=
  inferInstanceAs (Decidable (∀ d ∈ aliases.definitions, d.body.WellFormed))

namespace AliasMap

variable {aliases : AliasMap}

theorem WellFormed.body (wf : aliases.WellFormed) {name : String} {d : AliasDefinition}
    (found : aliases.find? name = some d) : d.body.WellFormed :=
  wf d (List.mem_of_find?_eq_some found)

section Resolution

/-- There is nothing to follow from a type that is not a reference. -/
theorem follow_of_refName?_eq_none {left : Nat} {chain : List String} {ty : Ty}
    (single : ty.refName? = none) : aliases.follow left chain ty = .ok ty := by
  cases ty with
  | ref name => cases single
  | _ => cases left <;> rfl

theorem resolve_of_refName?_eq_none {ty : Ty} (single : ty.refName? = none) :
    aliases.resolve ty = ty := by
  rw [resolve, tryResolve, follow_of_refName?_eq_none single]

theorem eq_ref_of_refName? {ty : Ty} {name : String} (named : ty.refName? = some name) :
    ty = .ref name := by
  cases ty with
  | ref own => exact congrArg Ty.ref (Option.some.inj named)
  | _ => cases named

theorem resolve_of_undeclared {name : String} (undeclared : aliases.contains name = false) :
    aliases.resolve (.ref name) = .ref name := by
  have missing : aliases.find? name = none := by simpa [contains] using undeclared
  rw [resolve, tryResolve, follow, missing]

/-- A type that is neither a reference nor a `keyof` is concrete. -/
theorem concrete_eq_self {ty : Ty} (single : ty.refName? = none)
    (evaluated : ∀ subject, ty ≠ .keyof subject) : aliases.concrete ty = ty := by
  rw [concrete, resolve_of_refName?_eq_none single]
  cases ty with
  | keyof subject => exact absurd rfl (evaluated subject)
  | _ => rfl

theorem refName?_of_asShape? {ty : Ty} {shape : Shape Ty} (shaped : ty.asShape? = some shape) :
    ty.refName? = none := by
  cases ty with
  | ref name => cases shaped
  | _ => rfl

theorem concrete_of_asShape? {ty : Ty} {shape : Shape Ty} (shaped : ty.asShape? = some shape) :
    aliases.concrete ty = ty := by
  refine concrete_eq_self (refName?_of_asShape? shaped) ?_
  rintro subject rfl
  cases shaped

/-- What holds on with every name that is opened holds at the end of a chain of references. -/
theorem follow_keeps {holds : Ty → Prop}
    (opens : ∀ name d, aliases.find? name = some d → holds (.ref name) → holds d.body)
    (left : Nat) (chain : List String) {ty : Ty} (start : holds ty) :
    match aliases.follow left chain ty with
    | .ok resolved => holds resolved
    | .error e => holds (.ref e.name) := by
  fun_induction follow aliases left chain ty with
  | case1 => exact start
  | case2 => exact start
  | case3 => exact start
  | case4 chain name d found new left ih => exact ih (opens name d found start)
  | case5 => exact start

/-- The end of a chain of references is where it starts or a body. -/
theorem follow_induction {holds : Ty → Prop} (bodies : ∀ d ∈ aliases.definitions, holds d.body)
    (left : Nat) (chain : List String) {ty : Ty} (start : holds ty) :
    match aliases.follow left chain ty with
    | .ok resolved => holds resolved
    | .error e => holds (.ref e.name) :=
  follow_keeps (fun _ d found _ => bodies d (List.mem_of_find?_eq_some found)) left chain start

theorem resolve_keeps (holds : Ty → Prop)
    (opens : ∀ name d, aliases.find? name = some d → holds (.ref name) → holds d.body)
    {ty : Ty} (start : holds ty) : holds (aliases.resolve ty) := by
  have ended := follow_keeps opens aliases.maxDepth [] start
  rw [resolve, tryResolve]
  generalize aliases.follow aliases.maxDepth [] ty = outcome at ended ⊢
  cases outcome with
  | ok resolved => exact ended
  | error e => exact ended

theorem resolve_induction (holds : Ty → Prop) (bodies : ∀ d ∈ aliases.definitions, holds d.body)
    {ty : Ty} (start : holds ty) : holds (aliases.resolve ty) :=
  resolve_keeps holds (fun _ d found _ => bodies d (List.mem_of_find?_eq_some found)) start

theorem resolve_wellFormed (wf : aliases.WellFormed) {ty : Ty} (wfTy : ty.WellFormed) :
    (aliases.resolve ty).WellFormed :=
  resolve_induction Ty.WellFormed wf wfTy

theorem instantiate_wellFormed (wf : aliases.WellFormed) (name : String) {args : List Ty}
    (wfArgs : ∀ arg ∈ args, arg.WellFormed) : (aliases.instantiate name args).WellFormed := by
  rw [instantiate]
  split
  case h_1 => exact .ref name
  case h_2 d found =>
    have wfBody := wf.body found
    split
    · exact Ty.substitute_wellFormed (.ofArgs wfArgs) wfBody
    · exact wfBody

end Resolution

section Keys

theorem exists_of_mem_mapM {α β : Type} {f : α → Option β} {as : List α} {bs : List β}
    (mapped : as.mapM f = some bs) {b : β} (member : b ∈ bs) : ∃ a ∈ as, f a = some b := by
  induction as generalizing bs with
  | nil =>
      cases mapped
      cases member
  | cons a as ih =>
      rw [List.mapM_cons] at mapped
      obtain ⟨first, head, rest⟩ := Option.bind_eq_some_iff.mp mapped
      obtain ⟨others, tail, rest⟩ := Option.bind_eq_some_iff.mp rest
      cases rest
      rcases List.mem_cons.mp member with rfl | later
      · exact ⟨a, .head _, head⟩
      · obtain ⟨c, listed, found⟩ := ih tail later
        exact ⟨c, .tail _ listed, found⟩

theorem ofNames_wellFormed (names : List String) : (Ty.ofNames names).WellFormed := by
  apply Ty.union_wellFormed
  intro ty member
  obtain ⟨name, listed, rfl⟩ := List.mem_map.mp member
  exact .literal (.text name)

variable {keys : Ty → Option Ty}

theorem keyofOperand?_wellFormed (wf : aliases.WellFormed)
    (wfKeys : ∀ s k : Ty, s.WellFormed → keys s = some k → k.WellFormed) {ty operand : Ty}
    (wfTy : ty.WellFormed) (found : aliases.keyofOperand? keys ty = some operand) :
    operand.WellFormed := by
  have wfResolved := resolve_wellFormed wf wfTy
  rw [keyofOperand?] at found
  split at found
  case h_1 subject evaluated =>
    rw [evaluated] at wfResolved
    exact wfKeys subject operand (wfResolved.child (.head _)) found
  case h_2 =>
    cases found
    exact wfResolved

theorem keyofStep?_wellFormed (wf : aliases.WellFormed)
    (wfKeys : ∀ s k : Ty, s.WellFormed → keys s = some k → k.WellFormed) {subject result : Ty}
    (wfSubject : subject.WellFormed) (found : aliases.keyofStep? keys subject = some result) :
    result.WellFormed := by
  obtain ⟨operand, known, rest⟩ := Option.bind_eq_some_iff.mp found
  have wfOperand := keyofOperand?_wellFormed wf wfKeys wfSubject known
  split at rest
  case h_1 shape =>
    cases rest
    exact ofNames_wellFormed _
  case h_2 key value =>
    cases rest
    exact wfOperand.recordKey
  case h_3 =>
    cases rest
    exact Ty.union_pair_wellFormed (.primitive .string) (.primitive .number)
  case h_4 members =>
    obtain ⟨operands, evaluated, rest⟩ := Option.bind_eq_some_iff.mp rest
    obtain ⟨others, keyed, rest⟩ := Option.bind_eq_some_iff.mp rest
    cases rest
    have wfOperands : ∀ o ∈ operands, o.WellFormed := by
      intro o member
      obtain ⟨m, inside, known⟩ := exists_of_mem_mapM evaluated member
      exact keyofOperand?_wellFormed wf wfKeys (wfOperand.intersectionMember inside) known
    apply Ty.union_wellFormed
    refine List.forall_mem_cons.mpr ⟨ofNames_wellFormed _, ?_⟩
    intro k member
    obtain ⟨o, listed, known⟩ := exists_of_mem_mapM keyed member
    exact wfKeys o k (wfOperands o (List.mem_of_mem_filter listed)) known
  case h_5 =>
    cases rest
    exact .primitive .string

theorem keyofSubject?_wellFormed (wf : aliases.WellFormed) (steps : Nat) (subject result : Ty)
    (wfSubject : subject.WellFormed) (found : aliases.keyofSubject? steps subject = some result) :
    result.WellFormed := by
  induction steps generalizing subject result with
  | zero => cases found
  | succ steps ih => exact keyofStep?_wellFormed wf ih wfSubject found

theorem keyofSubject_wellFormed (wf : aliases.WellFormed) {subject : Ty}
    (wfSubject : subject.WellFormed) : (aliases.keyofSubject subject).WellFormed := by
  rw [keyofSubject]
  cases found : aliases.keyofSubject? (aliases.keyofSteps subject) subject with
  | none => exact .primitive .string
  | some keys => exact keyofSubject?_wellFormed wf _ subject keys wfSubject found

theorem concrete_wellFormed (wf : aliases.WellFormed) {ty : Ty} (wfTy : ty.WellFormed) :
    (aliases.concrete ty).WellFormed := by
  have wfResolved := resolve_wellFormed wf wfTy
  rw [concrete]
  split
  case h_1 subject evaluated =>
    rw [evaluated] at wfResolved
    have wfSubject := wfResolved.child (.head _)
    exact resolve_wellFormed wf (keyofSubject_wellFormed wf wfSubject)
  case h_2 => exact wfResolved

end Keys

end AliasMap

section Leaves

variable {expand : List String → String → List Ty × List String}

theorem Ty.leavesOfAll_forall {holds : Ty → Prop} {tys : List Ty}
    (each : ∀ ty ∈ tys, ∀ seen, ∀ leaf ∈ (ty.leavesWith expand seen).1, holds leaf)
    (seen : List String) : ∀ leaf ∈ (leavesOfAll expand seen tys).1, holds leaf := by
  induction tys generalizing seen with
  | nil =>
      intro leaf member
      cases member
  | cons ty tys ih =>
      intro leaf member
      have split : leaf ∈ (ty.leavesWith expand seen).1 ++
          (leavesOfAll expand (ty.leavesWith expand seen).2 tys).1 := member
      rcases List.mem_append.mp split with first | later
      · exact each ty (.head _) seen leaf first
      · exact ih (fun other listed => each other (.tail _ listed)) _ leaf later

theorem Ty.leavesWith_wellFormed
    (wfExpand : ∀ seen name, ∀ leaf ∈ (expand seen name).1, leaf.WellFormed) {ty : Ty}
    (wf : ty.WellFormed) (seen : List String) :
    ∀ leaf ∈ (ty.leavesWith expand seen).1, leaf.WellFormed := by
  induction ty using childrenInduction generalizing seen with
  | step ty ih =>
      intro leaf member
      cases ty with
      | intersectionOf members =>
          have each : ∀ m ∈ members, ∀ seen, ∀ leaf ∈ (m.leavesWith expand seen).1,
              leaf.WellFormed := fun m inside => ih m inside (wf.intersectionMember inside)
          exact leavesOfAll_forall each seen leaf member
      | ref name =>
          rw [leavesWith] at member
          split at member
          · cases member
          · exact wfExpand _ _ leaf member
      | _ =>
          cases List.mem_singleton.mp member
          exact wf

theorem AliasMap.expandLeaves_wellFormed {aliases : AliasMap} (wf : aliases.WellFormed) (left : Nat)
    (seen : List String) (name : String) :
    ∀ leaf ∈ (aliases.expandLeaves left seen name).1, leaf.WellFormed := by
  induction left generalizing seen name with
  | zero =>
      intro leaf member
      cases List.mem_singleton.mp member
      exact .ref name
  | succ left ih =>
      intro leaf member
      have wfResolved := resolve_wellFormed wf (Ty.WellFormed.ref name)
      rw [expandLeaves] at member
      split at member
      case h_1 other _ =>
        cases List.mem_singleton.mp member
        exact .ref other
      case h_2 => exact Ty.leavesWith_wellFormed ih wfResolved seen leaf member

theorem AliasMap.leaves_wellFormed {aliases : AliasMap} (wf : aliases.WellFormed) {ty : Ty}
    (wfTy : ty.WellFormed) : ∀ leaf ∈ aliases.leaves ty, leaf.WellFormed :=
  Ty.leavesWith_wellFormed (aliases.expandLeaves_wellFormed wf _) wfTy []

end Leaves

section Merging

theorem mem_putProperty {α : Type} {property p : Property α} {properties : List (Property α)}
    (member : p ∈ putProperty property properties) : p = property ∨ p ∈ properties := by
  induction properties with
  | nil => exact Or.inl (List.mem_singleton.mp member)
  | cons first rest ih =>
      rw [putProperty] at member
      split at member
      · rcases List.mem_cons.mp member with same | later
        · exact Or.inl same
        · exact Or.inr (.tail _ later)
      · rcases List.mem_cons.mp member with rfl | later
        · exact Or.inr (.head _)
        · rcases ih later with same | old
          · exact Or.inl same
          · exact Or.inr (.tail _ old)

/-- Putting a property where its name stands changes no name. -/
theorem names_putProperty {α : Type} {property : Property α} {properties : List (Property α)}
    (present : property.name ∈ properties.map (·.name)) :
    (putProperty property properties).map (·.name) = properties.map (·.name) := by
  induction properties with
  | nil => cases present
  | cons first rest ih =>
      rw [putProperty]
      by_cases here : first.name = property.name
      · rw [if_pos here, List.map_cons, List.map_cons, here]
      · have later : property.name ∈ rest.map (·.name) := by
          rcases List.mem_cons.mp present with same | later
          · exact absurd same.symm here
          · exact later
        rw [if_neg here, List.map_cons, List.map_cons, ih later]

theorem mem_names_of_findProperty? {α : Type} {name : String} {properties : List (Property α)}
    {p : Property α} (found : findProperty? name properties = some p) :
    p ∈ properties ∧ p.name = name := by
  rw [findProperty?] at found
  have named := List.find?_some found
  exact ⟨List.mem_of_find?_eq_some found, by simpa using named⟩

theorem findProperty?_of_mem {α : Type} {properties : List (Property α)}
    (names : (properties.map (·.name)).Nodup) {p : Property α} (member : p ∈ properties) :
    findProperty? p.name properties = some p := by
  induction properties with
  | nil => cases member
  | cons first rest ih =>
      rw [List.map_cons, List.nodup_cons] at names
      rw [findProperty?, List.find?_cons]
      rcases List.mem_cons.mp member with rfl | later
      · rw [beq_self_eq_true]
      · have other : (first.name == p.name) = false := by
          rw [beq_eq_false_iff_ne]
          intro same
          exact names.1 (same ▸ List.mem_map_of_mem later)
        rw [other]
        exact ih names.2 later

theorem findProperty?_eq_none {α : Type} {name : String} {properties : List (Property α)} :
    findProperty? name properties = none ↔ name ∉ properties.map (·.name) := by
  simp [findProperty?]

theorem meetProperty_wellFormed {properties : List (Property Ty)} {property : Property Ty}
    (names : (properties.map (·.name)).Nodup) (wf : ∀ p ∈ properties, p.ty.WellFormed)
    (wfProperty : property.ty.WellFormed) :
    ((meetProperty properties property).map (·.name)).Nodup ∧
      ∀ p ∈ meetProperty properties property, p.ty.WellFormed := by
  rw [meetProperty]
  split
  case h_1 absent =>
    constructor
    · rw [List.map_append, List.map_singleton, List.nodup_append]
      refine ⟨names, List.nodup_singleton _, ?_⟩
      intro name old other new same
      cases List.mem_singleton.mp new
      exact findProperty?_eq_none.mp absent (same ▸ old)
    · intro p member
      rcases List.mem_append.mp member with old | new
      · exact wf p old
      · cases List.mem_singleton.mp new
        exact wfProperty
  case h_2 first found =>
    obtain ⟨member, named⟩ := mem_names_of_findProperty? found
    constructor
    · rw [names_putProperty]
      · exact names
      · exact List.mem_map.mpr ⟨first, member, named⟩
    · intro p inside
      rcases mem_putProperty inside with rfl | old
      · exact Ty.intersection_pair_wellFormed (wf first member) wfProperty
      · exact wf p old

theorem foldl_meetProperty_wellFormed {properties others : List (Property Ty)}
    (names : (properties.map (·.name)).Nodup) (wf : ∀ p ∈ properties, p.ty.WellFormed)
    (wfOthers : ∀ p ∈ others, p.ty.WellFormed) :
    ((others.foldl meetProperty properties).map (·.name)).Nodup ∧
      ∀ p ∈ others.foldl meetProperty properties, p.ty.WellFormed := by
  induction others generalizing properties with
  | nil => exact ⟨names, wf⟩
  | cons other others ih =>
      have step := meetProperty_wellFormed names wf (wfOthers other (.head _))
      exact ih step.1 step.2 fun p later => wfOthers p (.tail _ later)

theorem meetIndex_wellFormed {first second : Option (IndexSignature Ty)}
    (wfFirst : ∀ i, first = some i → i.key.WellFormed ∧ i.value.WellFormed)
    (wfSecond : ∀ i, second = some i → i.key.WellFormed ∧ i.value.WellFormed) :
    ∀ i, meetIndex first second = some i → i.key.WellFormed ∧ i.value.WellFormed := by
  cases first with
  | none => exact wfSecond
  | some own =>
      cases second with
      | none => exact wfFirst
      | some other =>
          intro i found
          cases found
          have parts := wfFirst own rfl
          exact ⟨parts.1, Ty.intersection_pair_wellFormed parts.2 (wfSecond other rfl).2⟩

theorem Shape.meet_wellFormed {first second : Shape Ty} (wfFirst : (Ty.object first).WellFormed)
    (wfSecond : (Ty.object second).WellFormed) : (Ty.object (first.meet second)).WellFormed := by
  obtain ⟨names, slots⟩ := foldl_meetProperty_wellFormed wfFirst.node
    (fun _ => wfFirst.property) (fun _ => wfSecond.property)
  apply Ty.WellFormed.object names slots
  exact meetIndex_wellFormed (fun _ found => ⟨wfFirst.indexKey found, wfFirst.indexValue found⟩)
    fun _ found => ⟨wfSecond.indexKey found, wfSecond.indexValue found⟩

theorem foldl_meet_wellFormed {shape : Shape Ty} {shapes : List (Shape Ty)}
    (wf : (Ty.object shape).WellFormed) (wfShapes : ∀ s ∈ shapes, (Ty.object s).WellFormed) :
    (Ty.object (shapes.foldl Shape.meet shape)).WellFormed := by
  induction shapes generalizing shape with
  | nil => exact wf
  | cons other others ih =>
      have step := Shape.meet_wellFormed wf (wfShapes other (.head _))
      exact ih step fun s later => wfShapes s (.tail _ later)

theorem AliasMap.merge_wellFormed {aliases : AliasMap} (wf : aliases.WellFormed) {ty : Ty}
    (wfTy : ty.WellFormed) {shape : Shape Ty} (merged : aliases.merge ty = .shape shape) :
    (Ty.object shape).WellFormed := by
  have wfLeaves := leaves_wellFormed wf wfTy
  rw [merge, mergeLeaves] at merged
  split at merged
  · cases merged
  · split at merged
    · cases merged
    · cases merged
      apply foldl_meet_wellFormed
      · exact .leaf _ rfl List.nodup_nil
      · intro s member
        obtain ⟨leaf, listed, found⟩ := List.mem_filterMap.mp member
        exact (wfLeaves leaf listed).asShape found

end Merging

end StructuralTypes
