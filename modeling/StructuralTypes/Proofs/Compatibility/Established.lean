import StructuralTypes.Proofs.Compatibility.Coinduction
import StructuralTypes.Proofs.Reordering.Aliases

set_option autoImplicit false

namespace StructuralTypes

structure Query.WellFormed (q : Query) : Prop where
  value : q.value.WellFormed
  target : q.target.WellFormed

section Premises

/-- The query that a demand asks. -/
def Demand.query? : Demand → Option Query
  | refuse => none
  | query q => some q

namespace Rule

/-- All queries that a rule may ask. -/
def queries : Rule → List Query
  | allOf demands => demands.filterMap Demand.query?
  | anyOf queries => queries

theorem mem_queries_allOf {demands : List Demand} {q : Query} :
    q ∈ (allOf demands).queries ↔ Demand.query q ∈ demands := by
  rw [queries, List.mem_filterMap]
  constructor
  · intro ⟨demand, member, found⟩
    cases demand with
    | refuse => cases found
    | query p =>
        cases found
        exact member
  · intro member
    exact ⟨.query q, member, rfl⟩

@[simp] theorem queries_verdict (answer : Bool) : (verdict answer).queries = [] := by
  cases answer <;> rfl

@[simp] theorem queries_allQueries (queries : List Query) : (allQueries queries).queries = queries := by
  rw [allQueries, Rule.queries, List.filterMap_map]
  exact List.filterMap_some

theorem Holds.mono_of_mem {holds weaker : Query → Prop} {rule : Rule}
    (implies : ∀ q ∈ rule.queries, holds q → weaker q) (met : rule.Holds holds) :
    rule.Holds weaker := by
  cases rule with
  | allOf demands =>
      intro demand member
      have known := met demand member
      cases demand with
      | refuse => exact known
      | query q => exact implies q (mem_queries_allOf.mpr member) known
  | anyOf queries =>
      obtain ⟨q, member, known⟩ := met
      exact ⟨q, member, implies q member known⟩

end Rule

/-- What the rule for a query may ask about: parts of the two types, a slot with `undefined` added to
it, and the merged shape of an intersection. -/
inductive Premise (aliases : AliasMap) : Query → Query → Prop
  | value {value target v : Ty} (own : v ∈ value.children) :
    Premise aliases ⟨value, target⟩ ⟨v, target⟩
  | target {value target t : Ty} (other : t ∈ target.children) :
    Premise aliases ⟨value, target⟩ ⟨value, t⟩
  | parts {value target v t : Ty} (own : v ∈ value.children) (other : t ∈ target.children) :
    Premise aliases ⟨value, target⟩ ⟨v, t⟩
  | back {value target v t : Ty} (own : v ∈ value.children) (other : t ∈ target.children) :
    Premise aliases ⟨value, target⟩ ⟨t, v⟩
  | slot {value target v : Ty} {slot : Property Ty} (own : v ∈ value.children)
    (other : slot.ty ∈ target.children) : Premise aliases ⟨value, target⟩ ⟨v, slot.declared⟩
  | merged {members : List Ty} {target : Ty} {merged : Shape Ty}
    (merges : aliases.merge (.intersectionOf members) = .shape merged) :
    Premise aliases ⟨.intersectionOf members, target⟩ ⟨.object merged, target⟩

namespace Rule

variable {aliases : AliasMap} {value target : Ty} {p : Query}

section Shapes

/-- A record has the parts of the object that it stands for. -/
theorem children_of_asShape? {ty : Ty} {shape : Shape Ty} (shaped : ty.asShape? = some shape) :
    (Ty.object shape).children = ty.children := by
  cases ty <;> cases shaped <;> rfl

variable {source shape : Shape Ty} (own : value.asShape? = some source)
  (other : target.asShape? = some shape)

include own other

theorem premise_of_propertyDemands {slot : Property Ty} (declared : slot ∈ shape.properties)
    (asked : Demand.query p ∈ propertyDemands source slot) : Premise aliases ⟨value, target⟩ p := by
  have expected : slot.ty ∈ target.children :=
    children_of_asShape? other ▸ Ty.property_mem_children declared
  unfold propertyDemands at asked
  split at asked
  · rename_i property found
    split at asked
    · cases List.mem_singleton.mp asked
    · cases List.mem_singleton.mp asked
      have member := Ty.property_mem_children (mem_names_of_findProperty? found).1
      exact .slot (children_of_asShape? own ▸ member) expected
  · split at asked
    · cases asked
    · split at asked
      · rename_i index found
        cases List.mem_singleton.mp asked
        exact .parts (children_of_asShape? own ▸ Ty.indexValue_mem_children found) expected
      · cases List.mem_singleton.mp asked

theorem premise_of_indexDemands {index : IndexSignature Ty} (declared : shape.index = some index)
    (asked : Demand.query p ∈ indexDemands source index) : Premise aliases ⟨value, target⟩ p := by
  have expected : index.value ∈ target.children :=
    children_of_asShape? other ▸ Ty.indexValue_mem_children declared
  rw [indexDemands] at asked
  rcases List.mem_append.mp asked with slot | signature
  · obtain ⟨property, member, same⟩ := List.mem_map.mp slot
    cases same
    exact .parts (children_of_asShape? own ▸ Ty.property_mem_children member) expected
  · obtain ⟨index, found, same⟩ := List.mem_map.mp signature
    cases same
    have member := Ty.indexValue_mem_children (Option.mem_toList.mp found)
    exact .parts (children_of_asShape? own ▸ member) expected

theorem premise_of_shapes (asked : p ∈ (shapes source shape).queries) :
    Premise aliases ⟨value, target⟩ p := by
  unfold shapes at asked
  split at asked
  · rw [queries_verdict] at asked
    cases asked
  · rcases List.mem_append.mp (mem_queries_allOf.mp asked) with slot | signature
    · obtain ⟨property, declared, demanded⟩ := List.mem_flatMap.mp slot
      exact premise_of_propertyDemands own other declared demanded
    · obtain ⟨index, found, demanded⟩ := List.mem_flatMap.mp signature
      exact premise_of_indexDemands own other (Option.mem_toList.mp found) demanded

end Shapes

theorem premise_of_signatures {source target : Signature Ty}
    (asked : p ∈ (signatures source target).queries) :
    Premise aliases ⟨.function source, .function target⟩ p := by
  unfold signatures at asked
  split at asked
  · rw [queries_allQueries] at asked
    have own := Ty.result_mem_children source
    have other := Ty.result_mem_children target
    rcases List.mem_append.mp asked with params | results
    · obtain ⟨⟨s, t⟩, zipped, inside⟩ := List.mem_flatMap.mp params
      have param := Ty.param_mem_children (List.of_mem_zip zipped).1
      have expected := Ty.param_mem_children (List.of_mem_zip zipped).2
      simp only [identical] at inside
      split at inside
      · cases inside
      · simp only [List.mem_cons, List.not_mem_nil, or_false] at inside
        rcases inside with rfl | rfl
        · exact .parts param expected
        · exact .back param expected
    · simp only [List.mem_cons, List.not_mem_nil, or_false] at results
      rcases results with rfl | rfl
      · exact .parts own other
      · exact .back own other
  · rw [queries_verdict] at asked
    cases asked

theorem premise_of_structural (asked : p ∈ (structural value target).queries) :
    Premise aliases ⟨value, target⟩ p := by
  unfold structural at asked
  split at asked
  case h_3 a b =>
    cases List.mem_singleton.mp asked
    exact .parts (.head _) (.head _)
  case h_4 as bs =>
    split at asked
    · rw [queries_allQueries] at asked
      obtain ⟨⟨a, b⟩, zipped, rfl⟩ := List.mem_map.mp asked
      exact .parts (List.of_mem_zip zipped).1 (List.of_mem_zip zipped).2
    · rw [queries_verdict] at asked
      cases asked
  case h_5 as b =>
    rw [queries_allQueries] at asked
    obtain ⟨a, inside, rfl⟩ := List.mem_map.mp asked
    exact .parts inside (.head _)
  case h_6 => exact premise_of_shapes rfl rfl asked
  case h_7 => exact premise_of_shapes rfl rfl asked
  case h_8 => exact premise_of_shapes rfl rfl asked
  case h_9 => exact premise_of_shapes rfl rfl asked
  case h_13 => exact premise_of_signatures asked
  all_goals
    rw [queries_verdict] at asked
    cases asked

theorem premise_of_intersectionSource {members : List Ty}
    (asked : p ∈ (intersectionSource aliases members target).queries) :
    Premise aliases ⟨.intersectionOf members, target⟩ p := by
  rcases List.mem_append.mp asked with one | whole
  · obtain ⟨m, member, rfl⟩ := List.mem_map.mp one
    exact .value member
  · split at whole
    · rename_i merges
      cases List.mem_singleton.mp whole
      exact .merged merges
    · cases whole

/-- A rule asks about nothing else. -/
theorem premise_of_mem {q : Query} (asked : p ∈ (Rule.of aliases q).queries) : Premise aliases q p := by
  obtain ⟨value, target⟩ := q
  unfold Rule.of at asked
  dsimp only at asked
  split at asked
  case h_1 =>
    rw [queries_allQueries] at asked
    obtain ⟨m, member, rfl⟩ := List.mem_map.mp asked
    exact .value member
  case h_2 =>
    unfold unionTarget at asked
    split at asked
    · rw [queries_verdict] at asked
      cases asked
    · obtain ⟨m, member, rfl⟩ := List.mem_map.mp asked
      exact .target member
  case h_3 =>
    rw [queries_allQueries] at asked
    obtain ⟨m, member, rfl⟩ := List.mem_map.mp asked
    exact .value member
  case h_4 =>
    rw [queries_allQueries] at asked
    obtain ⟨m, member, rfl⟩ := List.mem_map.mp asked
    exact .target member
  case h_5 => exact premise_of_intersectionSource asked
  case h_6 => exact premise_of_structural asked

/-- A rule asks about well-formed types only. -/
theorem of_wellFormed (wf : aliases.WellFormed) {q : Query} (wfQuery : q.WellFormed) :
    ∀ p ∈ (Rule.of aliases q).queries, p.WellFormed := by
  intro p asked
  cases premise_of_mem asked with
  | value own => exact ⟨wfQuery.value.child own, wfQuery.target⟩
  | target other => exact ⟨wfQuery.value, wfQuery.target.child other⟩
  | parts own other => exact ⟨wfQuery.value.child own, wfQuery.target.child other⟩
  | back own other => exact ⟨wfQuery.target.child other, wfQuery.value.child own⟩
  | slot own other =>
      exact ⟨wfQuery.value.child own, Property.declared_wellFormed (wfQuery.target.child other)⟩
  | merged merges => exact ⟨AliasMap.merge_wellFormed wf wfQuery.value merges, wfQuery.target⟩

end Rule

end Premises

theorem Query.WellFormed.concrete {aliases : AliasMap} (wf : aliases.WellFormed) {q : Query}
    (wfQuery : q.WellFormed) : (q.concrete aliases).WellFormed :=
  ⟨AliasMap.concrete_wellFormed wf wfQuery.value, AliasMap.concrete_wellFormed wf wfQuery.target⟩

/-- A rule that is met by pairs of types is met by pairs of well-formed types. -/
theorem Justified.wellFormed {aliases : AliasMap} (wf : aliases.WellFormed) {holds : Ty → Ty → Prop}
    {value target : Ty} (wfQuery : Query.WellFormed ⟨value, target⟩)
    (justified : Justified aliases holds value target) :
    Justified aliases (fun v t => Query.WellFormed ⟨v, t⟩ ∧ holds v t) value target := by
  apply (justified_iff ⟨value, target⟩).mpr
  rcases (justified_iff ⟨value, target⟩).mp justified with settled | ⟨undecided, met⟩
  · exact Or.inl settled
  · refine Or.inr ⟨undecided, met.mono_of_mem ?_⟩
    intro p asked known
    exact ⟨Rule.of_wellFormed wf wfQuery p asked, known⟩

/-- A pair of types equals, once made concrete, a pair that the rules justify. -/
def Established (aliases : AliasMap) : Ty → Ty → Prop := Supported aliases (largestWithin aliases [])

section Established

variable {aliases : AliasMap} {value target : Ty}

theorem established_of_derivable (derived : Derivable aliases [] ⟨value, target⟩) :
    Established aliases value target := by
  have inside := (mem_largestWithin_of_derivable derived).resolve_right (by simp)
  exact supported_of_mem inside

theorem Context.established_of_compatible {ctx : Context}
    (accepted : (ctx.compatible value target).value = true) :
    Established ctx.aliases value target :=
  established_of_derivable (ctx.derivable_of_compatible accepted)

variable (wf : aliases.WellFormed)

include wf

theorem Established.of_same {value' target' : Ty} (wfQuery : Query.WellFormed ⟨value, target⟩)
    (sameValue : value.Same value') (sameTarget : target.Same target')
    (known : Established aliases value target) : Established aliases value' target' := by
  have turn {a b : Ty} (wfA : a.WellFormed) (same : a.Same b) {c : Ty}
      (equal : (aliases.concrete a).Same c) : (aliases.concrete b).Same c := by
    have wfB := wfA.of_same same
    have wfConcrete := AliasMap.concrete_wellFormed wf wfA
    have wfOther := AliasMap.concrete_wellFormed wf wfB
    have turned := AliasMap.concrete_same wf wfB wfA (Ty.same_symm wfA wfB same)
    exact Ty.same_trans wfOther wfConcrete (wfConcrete.of_same equal) turned equal
  obtain ⟨p, member, left, right⟩ := known
  exact ⟨p, member, turn wfQuery.value sameValue left, turn wfQuery.target sameTarget right⟩

/-- What is established is justified by what is established, up to equality of types. -/
theorem Established.exists_justified (wfQuery : Query.WellFormed ⟨value, target⟩)
    (known : Established aliases value target) :
    ∃ v t, (aliases.concrete value).Same v ∧ (aliases.concrete target).Same t ∧
      Justified aliases (fun a b => Query.WellFormed ⟨a, b⟩ ∧ Established aliases a b) v t := by
  obtain ⟨p, member, left, right⟩ := known
  have wfPair := wfQuery.concrete wf
  have closed := (closed_largestWithin aliases []).justified p member
  have established := closed.mono fun v t supported => supported.resolve_right (by simp)
  exact ⟨p.value, p.target, left, right,
    established.wellFormed wf ⟨wfPair.value.of_same left, wfPair.target.of_same right⟩⟩

end Established

end StructuralTypes
