import StructuralTypes.Alias.Validate
import StructuralTypes.Proofs.NormalForm.Aliases
import StructuralTypes.Proofs.Ty.Names

set_option autoImplicit false

namespace StructuralTypes

namespace AliasDefinition

/-- The name stands free in the body or in a constraint of a type parameter, and is none of the
type parameters. -/
def RefersTo (d : AliasDefinition) (name : String) : Prop :=
  name ∉ d.typeParams.map (·.name) ∧
    (d.body.OccursFree name ∨
      ∃ param ∈ d.typeParams, ∃ constraint ∈ param.constraint, constraint.OccursFree name)

variable {d : AliasDefinition} {name : String}

theorem mem_freeNames_iff : name ∈ d.freeNames ↔ d.RefersTo name := by
  have constraints : name ∈ Ty.freeNamesConstraints (d.typeParams.map (·.name)) d.typeParams ↔
      name ∉ d.typeParams.map (·.name) ∧
        ∃ param ∈ d.typeParams, ∃ constraint ∈ param.constraint, constraint.OccursFree name := by
    simp only [Ty.freeNamesConstraints_eq_flatMap, List.mem_flatMap, List.mem_filterMap,
      Ty.mem_freeNames_iff, Option.mem_def]
    grind
  rw [freeNames, List.mem_append, Ty.mem_freeNames_iff, constraints, RefersTo, and_or_left]

/-- The reference that is the whole body of a definition without type parameters. -/
theorem refersTo_of_body (plain : d.isGeneric = false) (body : d.body = .ref name) :
    d.RefersTo name := by
  have none : d.typeParams = [] := by simpa [isGeneric] using plain
  rw [RefersTo, none, body]
  exact ⟨List.not_mem_nil, .inl .here⟩

end AliasDefinition

namespace AliasMap

variable {aliases : AliasMap} {d : AliasDefinition} {name : String}

theorem chainFindings_eq_nil_iff :
    aliases.chainFindings d = [] ↔ ∃ resolved, aliases.tryResolve (.ref d.name) = .ok resolved := by
  rw [chainFindings]
  split <;> simp_all

theorem undeclared_eq_nil_iff {names : List String} :
    aliases.undeclared names = [] ↔ ∀ name ∈ names, aliases.contains name = true := by
  simp [undeclared, List.eq_nil_iff_forall_not_mem, List.mem_eraseDups]

theorem referenceFindings_eq_nil_iff :
    aliases.referenceFindings d = [] ↔ ∀ name, d.RefersTo name → aliases.contains name = true := by
  simp only [referenceFindings, List.map_eq_nil_iff, undeclared_eq_nil_iff,
    AliasDefinition.mem_freeNames_iff]

/-- The definition of the name itself, and from there on each definition that is the whole body of
the one before. -/
inductive OnChain (aliases : AliasMap) (name : String) : AliasDefinition → Prop
  | start {d : AliasDefinition} (found : aliases.find? name = some d) : OnChain aliases name d
  | next {d e : AliasDefinition} {other : String} (before : OnChain aliases name d)
    (body : d.body = .ref other) (found : aliases.find? other = some e) : OnChain aliases name e

theorem OnChain.find?_name {d : AliasDefinition} (passed : aliases.OnChain name d) :
    ∃ own, aliases.find? own = some d := by
  cases passed with
  | start found => exact ⟨_, found⟩
  | next before body found => exact ⟨_, found⟩

/-- Where every reference on the chain is declared, what is found at its end is no reference. -/
theorem refName?_of_follow
    (declared : ∀ d, aliases.OnChain name d → ∀ other, d.body = .ref other →
      aliases.contains other = true)
    {left : Nat} {chain : List String} {ty resolved : Ty}
    (reached : ∀ current, ty = .ref current → ∃ d, aliases.find? current = some d ∧
      aliases.OnChain name d)
    (ended : aliases.follow left chain ty = .ok resolved) : resolved.refName? = none := by
  fun_induction follow aliases left chain ty with
  | case1 left chain current undeclared =>
      obtain ⟨d, found, _⟩ := reached current rfl
      rw [undeclared] at found
      cases found
  | case2 => cases ended
  | case3 => cases ended
  | case4 chain current d found new left ih =>
      obtain ⟨first, same, passed⟩ := reached current rfl
      cases found.symm.trans same
      refine ih (fun other body => ?_) ended
      obtain ⟨e, next⟩ := Option.isSome_iff_exists.mp (declared d passed other body)
      exact ⟨e, next, passed.next body next⟩
  | case5 left chain ty single =>
      cases ended
      cases resolved with
      | ref other => exact absurd rfl (single other)
      | _ => rfl

theorem validate_eq_nil_iff :
    aliases.validate = [] ↔ ∀ d ∈ aliases.definitions,
      (∃ resolved, aliases.tryResolve (.ref d.name) = .ok resolved) ∧
        ∀ name, d.RefersTo name → aliases.contains name = true := by
  simp only [validate, List.flatMap_eq_nil_iff, List.map_eq_nil_iff, List.append_eq_nil_iff,
    chainFindings_eq_nil_iff, referenceFindings_eq_nil_iff]

theorem mem_definitions_of_find? (found : aliases.find? name = some d) :
    d ∈ aliases.definitions ∧ d.name = name := by
  refine ⟨List.mem_of_find?_eq_some found, ?_⟩
  simpa using List.find?_some found

/-- A map has no findings exactly when every definition can be resolved and refers to declared names
only. Then a declared name stands for a type that is no reference, unless a generic definition is
passed on the way. -/
theorem clean_iff_resolvable :
    (aliases.validate = [] ↔ ∀ d ∈ aliases.definitions,
      (∃ resolved, aliases.tryResolve (.ref d.name) = .ok resolved) ∧
        ∀ name, d.RefersTo name → aliases.contains name = true) ∧
    (aliases.validate = [] → ∀ name, aliases.contains name = true →
      (∀ d, aliases.OnChain name d → d.isGeneric = false) →
        (aliases.resolve (.ref name)).refName? = none) := by
  refine ⟨validate_eq_nil_iff, fun clean name known plain => ?_⟩
  have each := validate_eq_nil_iff.mp clean
  obtain ⟨first, found⟩ := Option.isSome_iff_exists.mp known
  obtain ⟨listed, named⟩ := mem_definitions_of_find? found
  obtain ⟨resolved, ended⟩ := (each first listed).1
  rw [named] at ended
  have declared (d : AliasDefinition) (passed : aliases.OnChain name d) (other : String)
      (body : d.body = .ref other) : aliases.contains other = true := by
    obtain ⟨own, found⟩ := passed.find?_name
    exact (each d (mem_definitions_of_find? found).1).2 other
      (AliasDefinition.refersTo_of_body (plain d passed) body)
  have reached (current : String) (same : Ty.ref name = .ref current) :
      ∃ d, aliases.find? current = some d ∧ aliases.OnChain name d := by
    cases same
    exact ⟨first, found, .start found⟩
  rw [resolve, ended]
  exact refName?_of_follow declared reached ended

/-- A name for a name, recursion through a slot, and a generic function whose type parameter is not
declared anywhere. -/
def links : AliasMap where
  definitions :=
    [⟨"Head", [], .ref "Node"⟩,
      ⟨"Node", [], .object { properties :=
        [⟨"next", .ref "Head", true⟩,
          ⟨"map", .function ⟨[⟨"T", none⟩], [.ref "Node"], .ref "T"⟩, false⟩] }⟩]

theorem links_head_resolves :
    links.validate = [] ∧ (links.resolve (.ref "Head")).refName? = none := by
  have clean : links.validate = [] := by rfl
  have plain : ∀ d ∈ links.definitions, d.isGeneric = false := by decide
  refine ⟨clean, clean_iff_resolvable.2 clean "Head" (by decide) ?_⟩
  intro d passed
  obtain ⟨own, found⟩ := passed.find?_name
  exact plain d (mem_definitions_of_find? found).1

end AliasMap

end StructuralTypes
