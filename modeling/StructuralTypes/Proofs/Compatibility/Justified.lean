import StructuralTypes.Compatibility.Rule
import StructuralTypes.Proofs.Ty.Equality

set_option autoImplicit false

namespace StructuralTypes

section Relation

variable (aliases : AliasMap) (holds : Ty → Ty → Prop)

/-- A source shape gives a target property what it asks for: a compatible property of its name that
is not optional unless the target's is, or else the source's index signature stands in. -/
def SlotMet (source : Shape Ty) (slot : Property Ty) : Prop :=
  match source.property? slot.name with
  | some property =>
    (property.optional = true → slot.optional = true) ∧ holds property.ty slot.declared
  | none => slot.optional = true ∨ ∃ index, source.index = some index ∧ holds index.value slot.ty

/-- A source shape gives a target shape what it asks for. -/
structure ShapesMet (source target : Shape Ty) : Prop where
  slots : ∀ slot ∈ target.properties, SlotMet holds source slot
  properties : ∀ index, target.index = some index → ∀ property ∈ source.properties,
    holds property.ty index.value
  index : ∀ index own, target.index = some index → source.index = some own →
    holds own.value index.value

/-- The rules that go by the shape of the two types. A rule about unions or intersections that
stands after another one applies only where that one does not. -/
inductive ByShape : Ty → Ty → Prop
  | ofUnion {sources : List Ty} {target : Ty} (each : ∀ source ∈ sources, holds source target) :
    ByShape (.unionOf sources) target
  | toUnion {value member : Ty} {members : List Ty} (single : value.isUnion = false)
    (listed : member ∈ members) (accepts : member.Same value ∨ holds value member) :
    ByShape value (.unionOf members)
  | toIntersection {value : Ty} {members : List Ty} (single : value.isUnion = false)
    (each : ∀ member ∈ members, holds value member) : ByShape value (.intersectionOf members)
  | ofMember {member target : Ty} {members : List Ty} (noUnion : target.isUnion = false)
    (noIntersection : target.isIntersection = false) (listed : member ∈ members)
    (accepted : holds member target) : ByShape (.intersectionOf members) target
  | ofMerged {members : List Ty} {target : Ty} {merged shape : Shape Ty}
    (shaped : target.asShape? = some shape)
    (merges : aliases.merge (.intersectionOf members) = .shape merged)
    (accepted : holds (.object merged) target) : ByShape (.intersectionOf members) target
  | literalBase (value : Literal) : ByShape (.literal value) (.primitive value.base)
  | literal {a b : Literal} (equal : a.same b = true) : ByShape (.literal a) (.literal b)
  | array {a b : Ty} (element : holds a b) : ByShape (.array a) (.array b)
  | tuple {as bs : List Ty} (each : List.Forall₂ holds as bs) : ByShape (.tuple as) (.tuple bs)
  | tupleArray {as : List Ty} {b : Ty} (each : ∀ a ∈ as, holds a b) :
    ByShape (.tuple as) (.array b)
  | sameClass {value target : Ty} {source shape : Shape Ty} {name : String}
    (valueShape : value.asShape? = some source) (targetShape : target.asShape? = some shape)
    (valueClass : source.className = some name) (targetClass : shape.className = some name) :
    ByShape value target
  | shapes {value target : Ty} {source shape : Shape Ty} (valueShape : value.asShape? = some source)
    (targetShape : target.asShape? = some shape) (met : ShapesMet holds source shape) :
    ByShape value target
  | anyFunction : ByShape .anyFunction .anyFunction
  | ofAnyFunction (target : Signature Ty) : ByShape .anyFunction (.function target)
  | toAnyFunction (source : Signature Ty) : ByShape (.function source) .anyFunction
  | function {source target : Signature Ty}
    (params : List.Forall₂ (fun a b => a.Same b ∨ holds a b ∧ holds b a) source.params target.params)
    (result : holds source.result target.result) (back : holds target.result source.result) :
    ByShape (.function source) (.function target)
  | predicate (parameter : String) (guard : Ty) : ByShape (.predicate parameter guard) .boolean
  | primitive (kind : Primitive) : ByShape (.primitive kind) (.primitive kind)

/-- A pair of concrete types is justified by the first rule that applies to it. Nothing but `any`
and `never` goes where `never` is expected. -/
inductive Justified : Ty → Ty → Prop
  | anyTarget (value : Ty) : Justified value .any
  | anyValue (target : Ty) : Justified .any target
  | neverValue (target : Ty) : Justified .never target
  | equal {value target : Ty} (same : value.Same target) : Justified value target
  | byShape {value target : Ty} (inhabited : target.isNever = false)
    (rule : ByShape aliases holds value target) : Justified value target

end Relation

theorem ShapesMet.mono {holds weaker : Ty → Ty → Prop} {source target : Shape Ty}
    (implies : ∀ value target, holds value target → weaker value target)
    (met : ShapesMet holds source target) : ShapesMet weaker source target where
  slots slot declared := by
    have slotMet := met.slots slot declared
    unfold SlotMet at slotMet ⊢
    cases named : source.property? slot.name with
    | some property =>
        simp only [named] at slotMet
        exact slotMet.imp_right (implies _ _)
    | none =>
        simp only [named] at slotMet
        refine slotMet.imp_right fun ⟨index, found, accepted⟩ => ?_
        exact ⟨index, found, implies _ _ accepted⟩
  properties index found property member := implies _ _ (met.properties index found property member)
  index index own found given := implies _ _ (met.index index own found given)

namespace Demand

/-- A demand is met by a query that holds. -/
def Met (holds : Query → Prop) : Demand → Prop
  | refuse => False
  | query q => holds q

end Demand

namespace Rule

/-- The answer of a rule when `holds` says which of its queries hold. -/
def Holds (holds : Query → Prop) : Rule → Prop
  | allOf demands => ∀ demand ∈ demands, demand.Met holds
  | anyOf queries => ∃ q ∈ queries, holds q

variable {holds : Query → Prop}

@[simp] theorem holds_verdict (answer : Bool) : (verdict answer).Holds holds ↔ answer = true := by
  cases answer <;> simp [verdict, Holds, Demand.Met]

@[simp] theorem holds_allQueries (queries : List Query) :
    (allQueries queries).Holds holds ↔ ∀ q ∈ queries, holds q := by
  simp [allQueries, Holds, Demand.Met]

@[simp] theorem holds_anyOf (queries : List Query) :
    (anyOf queries).Holds holds ↔ ∃ q ∈ queries, holds q := Iff.rfl

theorem Holds.mono {holds weaker : Query → Prop} {rule : Rule}
    (implies : ∀ q, holds q → weaker q) (met : rule.Holds holds) : rule.Holds weaker := by
  cases rule with
  | allOf demands =>
      intro demand member
      have known := met demand member
      cases demand with
      | refuse => exact known
      | query q => exact implies q known
  | anyOf queries =>
      obtain ⟨q, member, known⟩ := met
      exact ⟨q, member, implies q known⟩

section Dispatch

variable (aliases : AliasMap) {value target : Ty}

theorem of_unionSource (sources : List Ty) (target : Ty) :
    Rule.of aliases ⟨.unionOf sources, target⟩ = allQueries (sources.map (⟨·, target⟩)) := by
  cases target <;> rfl

theorem of_unionTarget (members : List Ty) (single : value.isUnion = false) :
    Rule.of aliases ⟨value, .unionOf members⟩ = unionTarget value members := by
  cases value <;> first | rfl | cases single

theorem of_intersectionTarget (members : List Ty) (single : value.isUnion = false) :
    Rule.of aliases ⟨value, .intersectionOf members⟩ = allQueries (members.map (⟨value, ·⟩)) := by
  cases value <;> first | rfl | cases single

theorem of_intersectionSource (members : List Ty) (noUnion : target.isUnion = false)
    (noIntersection : target.isIntersection = false) :
    Rule.of aliases ⟨.intersectionOf members, target⟩ =
      intersectionSource aliases members target := by
  cases target <;> first
    | rfl
    | exact Bool.noConfusion noUnion
    | exact Bool.noConfusion noIntersection

theorem of_structural (single : value.isUnion = false) (plain : value.isIntersection = false)
    (noUnion : target.isUnion = false) (noIntersection : target.isIntersection = false) :
    Rule.of aliases ⟨value, target⟩ = structural value target := by
  cases value <;> first
    | exact Bool.noConfusion single
    | exact Bool.noConfusion plain
    | (cases target <;> first
        | rfl
        | exact Bool.noConfusion noUnion
        | exact Bool.noConfusion noIntersection)

end Dispatch

end Rule

section Agreement

variable {aliases : AliasMap} {holds : Ty → Ty → Prop}

/-- A relation between types as one on queries. -/
abbrev Query.Related (holds : Ty → Ty → Prop) (q : Query) : Prop := holds q.value q.target

theorem propertyDemands_met (source : Shape Ty) (slot : Property Ty) :
    (∀ demand ∈ Rule.propertyDemands source slot, demand.Met (Query.Related holds)) ↔
      SlotMet holds source slot := by
  unfold Rule.propertyDemands SlotMet
  cases source.property? slot.name with
  | some property =>
      cases given : property.optional <;> cases asked : slot.optional <;> simp [given, Demand.Met]
  | none =>
      cases asked : slot.optional with
      | true => simp
      | false => cases source.index <;> simp [Demand.Met]

theorem indexDemands_met (source : Shape Ty) (index : IndexSignature Ty) :
    (∀ demand ∈ Rule.indexDemands source index, demand.Met (Query.Related holds)) ↔
      (∀ property ∈ source.properties, holds property.ty index.value) ∧
        ∀ own, source.index = some own → holds own.value index.value := by
  simp only [Rule.indexDemands, List.mem_append, List.mem_map, Option.mem_toList, or_imp,
    forall_and, forall_exists_index, and_imp]
  constructor
  · rintro ⟨properties, own⟩
    exact ⟨fun property member => properties _ property member rfl,
      fun index found => own _ index found rfl⟩
  · rintro ⟨properties, own⟩
    refine ⟨?_, ?_⟩
    · rintro demand property member rfl
      exact properties property member
    · rintro demand index found rfl
      exact own index found

theorem sameClass_iff (source target : Shape Ty) :
    Rule.sameClass source target = true ↔
      ∃ name, source.className = some name ∧ target.className = some name := by
  unfold Rule.sameClass
  cases source.className with
  | none => simp
  | some name =>
      rw [Option.isSome_some, Bool.true_and, beq_iff_eq]
      constructor
      · intro equal
        exact ⟨name, rfl, equal.symm⟩
      · rintro ⟨_, own, found⟩
        rw [own, found]

theorem shapes_holds (source target : Shape Ty) :
    (Rule.shapes source target).Holds (Query.Related holds) ↔
      Rule.sameClass source target = true ∨ ShapesMet holds source target := by
  unfold Rule.shapes
  split
  · rename_i same
    simp [same]
  · rename_i different
    simp only [Rule.Holds, List.mem_append, List.mem_flatMap, Option.mem_toList, different,
      Bool.false_eq_true, false_or, or_imp, forall_and, forall_exists_index, and_imp]
    constructor
    · rintro ⟨slots, index⟩
      have indexMet (found : IndexSignature Ty) (declared : target.index = some found) :=
        (indexDemands_met source found).mp fun demand => index demand found declared
      exact
        { slots := fun slot member =>
            (propertyDemands_met source slot).mp fun demand => slots demand slot member
          properties := fun found declared => (indexMet found declared).1
          index := fun found own declared => (indexMet found declared).2 own }
    · intro met
      refine ⟨?_, ?_⟩
      · intro demand slot member
        exact (propertyDemands_met source slot).mpr (met.slots slot member) demand
      · intro demand found declared
        exact (indexDemands_met source found).mpr
          ⟨met.properties found declared, fun own => met.index found own declared⟩ demand

theorem identical_holds (a b : Ty) :
    (∀ q ∈ Rule.identical a b, Query.Related holds q) ↔ a.Same b ∨ holds a b ∧ holds b a := by
  unfold Rule.identical
  cases equal : a.same b <;> simp [Ty.Same, equal, Query.Related]

theorem signatures_holds (source target : Signature Ty) :
    (Rule.signatures source target).Holds (Query.Related holds) ↔
      List.Forall₂ (fun a b => a.Same b ∨ holds a b ∧ holds b a) source.params target.params ∧
        holds source.result target.result ∧ holds target.result source.result := by
  unfold Rule.signatures
  split
  · rename_i counts
    have each : (∀ q ∈ (source.params.zip target.params).flatMap
        (fun pair => Rule.identical pair.1 pair.2), Query.Related holds q) ↔
          List.Forall₂ (fun a b => a.Same b ∨ holds a b ∧ holds b a) source.params target.params := by
      simp only [List.mem_flatMap, forall_exists_index, and_imp, List.forall₂_iff_zip, counts,
        true_and]
      constructor
      · intro met a b member
        exact (identical_holds a b).mp fun q inside => met q (a, b) member inside
      · rintro met q ⟨a, b⟩ member inside
        exact (identical_holds a b).mpr (met member) q inside
    rw [Rule.holds_allQueries, List.forall_mem_append]
    exact and_congr each (by simp)
  · rename_i counts
    constructor
    · intro impossible
      simp at impossible
    · rintro ⟨params, -, -⟩
      exact absurd params.length_eq counts

theorem structural_holds_byShape (value target : Ty)
    (met : (Rule.structural value target).Holds (Query.Related holds)) :
    ByShape aliases holds value target := by
  unfold Rule.structural at met
  split at met
  · rename_i a kind
    have base : a.base = kind := by simpa using met
    exact base ▸ .literalBase a
  · exact .literal (by simpa using met)
  · exact .array (by simpa using met)
  · rename_i as bs
    split at met
    · rename_i counts
      refine .tuple (List.forall₂_iff_zip.mpr ⟨counts, ?_⟩)
      intro a b member
      exact (Rule.holds_allQueries _).mp met ⟨a, b⟩ (List.mem_map.mpr ⟨(a, b), member, rfl⟩)
    · simp at met
  · exact .tupleArray (by simpa using met)
  all_goals first
    | (rcases (shapes_holds _ _).mp met with same | slots
       · obtain ⟨name, sourceClass, targetClass⟩ := (sameClass_iff _ _).mp same
         exact .sameClass rfl rfl sourceClass targetClass
       · exact .shapes rfl rfl slots)
    | exact .anyFunction
    | exact .ofAnyFunction _
    | exact .toAnyFunction _
    | exact .predicate _ _
    | skip
  · obtain ⟨params, result, back⟩ := (signatures_holds _ _).mp met
    exact .function params result back
  · rename_i a b
    have equal : a = b := by simpa using met
    exact equal ▸ .primitive a
  · simp at met

theorem Ty.isUnion_eq_false {ty : Ty} (different : ∀ members, ty = .unionOf members → False) :
    ty.isUnion = false := by
  cases ty with
  | unionOf members => exact absurd rfl (different members)
  | _ => rfl

theorem byShape_of_holds (q : Query) (met : (Rule.of aliases q).Holds (Query.Related holds)) :
    ByShape aliases holds q.value q.target := by
  obtain ⟨value, target⟩ := q
  unfold Rule.of at met
  dsimp only at met
  split at met
  · exact .ofUnion (by simpa using met)
  · rename_i members notUnion
    have single := Ty.isUnion_eq_false notUnion
    unfold Rule.unionTarget at met
    split at met
    · rename_i among
      obtain ⟨member, listed, equal⟩ := (Ty.isAmong_iff _ _).mp among
      exact .toUnion single listed (Or.inl equal)
    · simp only [Rule.holds_anyOf, List.mem_map, exists_exists_and_eq_and] at met
      obtain ⟨member, listed, accepted⟩ := met
      exact .toUnion single listed (Or.inr accepted)
  · exact .ofUnion (by simpa using met)
  · rename_i members _ notUnion
    have single := Ty.isUnion_eq_false notUnion
    exact .toIntersection single (by simpa using met)
  · rename_i members noUnion noIntersection
    unfold Rule.intersectionSource at met
    simp only [Rule.holds_anyOf, List.mem_append, List.mem_map] at met
    obtain ⟨q, ⟨member, listed, rfl⟩ | inMerged, accepted⟩ := met
    · refine .ofMember ?_ ?_ listed accepted
      · cases target <;> first | rfl | exact absurd rfl (noUnion _)
      · cases target <;> first | rfl | exact absurd rfl (noIntersection _)
    · split at inMerged
      · rename_i shaped merges
        rw [List.mem_singleton.mp inMerged] at accepted
        exact .ofMerged shaped merges accepted
      · cases inMerged
  · exact structural_holds_byShape value target met

theorem structural_shapes {value target : Ty} {source shape : Shape Ty}
    (valueShape : value.asShape? = some source) (targetShape : target.asShape? = some shape) :
    Rule.of aliases ⟨value, target⟩ = Rule.shapes source shape := by
  cases value <;> simp only [Ty.asShape?, reduceCtorEq, Option.some.injEq] at valueShape <;>
    cases target <;> simp only [Ty.asShape?, reduceCtorEq, Option.some.injEq] at targetShape <;>
    subst valueShape targetShape <;> rfl

theorem holds_of_byShape {value target : Ty} (rule : ByShape aliases holds value target) :
    (Rule.of aliases ⟨value, target⟩).Holds (Query.Related holds) := by
  cases rule with
  | @ofUnion sources target each =>
      rw [Rule.of_unionSource]
      simpa using each
  | @toUnion value member members single listed accepts =>
      rw [Rule.of_unionTarget aliases members single, Rule.unionTarget]
      split
      · simp
      · rename_i absent
        rcases accepts with equal | accepted
        · exact absurd ((Ty.isAmong_iff _ _).mpr ⟨member, listed, equal⟩) absent
        · exact ⟨⟨value, member⟩, List.mem_map_of_mem listed, accepted⟩
  | @toIntersection value members single each =>
      rw [Rule.of_intersectionTarget aliases members single]
      simpa using each
  | @ofMember member target members noUnion noIntersection listed accepted =>
      rw [Rule.of_intersectionSource aliases members noUnion noIntersection]
      exact ⟨⟨member, target⟩, List.mem_append_left _ (List.mem_map_of_mem listed), accepted⟩
  | @ofMerged members target merged shape shaped merges accepted =>
      have noUnion : target.isUnion = false := by cases target <;> first | rfl | cases shaped
      have noIntersection : target.isIntersection = false := by
        cases target <;> first | rfl | cases shaped
      rw [Rule.of_intersectionSource aliases members noUnion noIntersection]
      refine ⟨⟨.object merged, target⟩, List.mem_append_right _ ?_, accepted⟩
      rw [shaped, merges]
      exact List.mem_singleton_self _
  | literalBase value => exact (Rule.holds_verdict _).mpr (by simp)
  | literal equal => exact (Rule.holds_verdict _).mpr equal
  | array element => exact (Rule.holds_allQueries _).mpr (by simpa using element)
  | @tuple as bs each =>
      have shape : Rule.of aliases ⟨.tuple as, .tuple bs⟩ =
          Rule.allQueries ((as.zip bs).map (fun pair => ⟨pair.1, pair.2⟩)) := by
        simp [Rule.of, Rule.structural, each.length_eq]
      rw [shape, Rule.holds_allQueries]
      intro q member
      obtain ⟨⟨a, b⟩, zipped, rfl⟩ := List.mem_map.mp member
      exact (List.forall₂_iff_zip.mp each).2 zipped
  | tupleArray each => exact (Rule.holds_allQueries _).mpr (by simpa using each)
  | sameClass valueShape targetShape valueClass targetClass =>
      rw [structural_shapes valueShape targetShape, shapes_holds]
      exact Or.inl ((sameClass_iff _ _).mpr ⟨_, valueClass, targetClass⟩)
  | shapes valueShape targetShape met =>
      rw [structural_shapes valueShape targetShape, shapes_holds]
      exact Or.inr met
  | anyFunction => exact (Rule.holds_verdict _).mpr rfl
  | ofAnyFunction target => exact (Rule.holds_verdict _).mpr rfl
  | toAnyFunction source => exact (Rule.holds_verdict _).mpr rfl
  | function params result back => exact (signatures_holds _ _).mpr ⟨params, result, back⟩
  | predicate parameter guard => exact (Rule.holds_verdict _).mpr rfl
  | primitive kind => exact (Rule.holds_verdict _).mpr (by simp)

theorem isAny_iff (ty : Ty) : ty.isAny = true ↔ ty = .any := by
  cases ty with
  | primitive kind => cases kind <;> simp [Ty.isAny]
  | _ => simp [Ty.isAny]

theorem isNever_iff (ty : Ty) : ty.isNever = true ↔ ty = .never := by
  cases ty with
  | primitive kind => cases kind <;> simp [Ty.isNever]
  | _ => simp [Ty.isNever]

theorem isAny_of_asShape? {ty : Ty} {shape : Shape Ty} (shaped : ty.asShape? = some shape) :
    ty.isAny = false := by
  cases ty with
  | primitive kind => cases shaped
  | _ => rfl

theorem isNever_of_asShape? {ty : Ty} {shape : Shape Ty} (shaped : ty.asShape? = some shape) :
    ty.isNever = false := by
  cases ty with
  | primitive kind => cases shaped
  | _ => rfl

/-- Without a rule, types with shapes are compatible only if they are equal. -/
theorem same_of_settled {value target : Ty} {source shape : Shape Ty}
    (valueShape : value.asShape? = some source) (targetShape : target.asShape? = some shape)
    (settled : Query.settled? ⟨value, target⟩ = some true) : value.Same target := by
  simp only [Query.settled?, isAny_of_asShape? valueShape, isAny_of_asShape? targetShape,
    isNever_of_asShape? valueShape, isNever_of_asShape? targetShape] at settled
  by_contra different
  simp [show value.same target = false by simpa using different] at settled

/-- The rules as a relation are the rules that a walk follows: first the answers that need no rule,
then the rule for the shape of the two types. -/
theorem justified_iff (q : Query) :
    Justified aliases holds q.value q.target ↔
      q.settled? = some true ∨
        q.settled? = none ∧ (Rule.of aliases q).Holds (Query.Related holds) := by
  obtain ⟨value, target⟩ := q
  constructor
  · intro justified
    unfold Query.settled?
    cases justified with
    | anyTarget => simp [Ty.isAny]
    | anyValue => simp [Ty.isAny]
    | neverValue => simp [Ty.isAny, Ty.isNever]
    | equal same =>
        by_cases never : target = .never
        · subst never
          cases value <;> simp_all [Ty.Same, Ty.same, Ty.isNever]
        · have inhabited : target.isNever = false := by
            simpa using mt (isNever_iff target).mp never
          left
          simp only [inhabited, show value.same target = true from same]
          split
          · rfl
          · split <;> rfl
    | byShape inhabited rule =>
        have met := holds_of_byShape rule
        simp only [inhabited]
        split
        · exact Or.inl rfl
        · split
          · exact Or.inl rfl
          · by_cases equal : value.same target = true
            · simp [equal]
            · simp [equal, met]
  · rintro (settled | ⟨settled, met⟩)
    · unfold Query.settled? at settled
      dsimp only at settled
      split at settled
      · rename_i anySide
        rw [Bool.or_eq_true, isAny_iff, isAny_iff] at anySide
        rcases anySide with rfl | rfl
        · exact .anyTarget value
        · exact .anyValue target
      · split at settled
        · rename_i neverSide
          rw [isNever_iff] at neverSide
          exact neverSide ▸ .neverValue target
        · split at settled
          · cases settled
          · split at settled
            · exact .equal (by assumption)
            · cases settled
    · refine .byShape ?_ (byShape_of_holds _ met)
      by_contra never
      rw [Bool.not_eq_false] at never
      unfold Query.settled? at settled
      simp only [never] at settled
      split at settled
      · cases settled
      · split at settled <;> cases settled

end Agreement

end StructuralTypes
