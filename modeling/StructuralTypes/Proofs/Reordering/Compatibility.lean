import StructuralTypes.Proofs.Compatibility.Established
import StructuralTypes.Proofs.Reordering.Merge

set_option autoImplicit false

namespace StructuralTypes

section Shapes

variable {s s' t t' : Shape Ty}

theorem Shape.Alike.property? (alike : s.Alike s') (names : (s'.properties.map (·.name)).Nodup)
    {name : String} {p : Property Ty} (found : s.property? name = some p) :
    ∃ q, s'.property? name = some q ∧ Ty.SameProperty p q := by
  obtain ⟨member, named⟩ := mem_names_of_findProperty? found
  obtain ⟨q, inside, same⟩ := ((Shape.alike_iff s s').mp alike).2.1 p member
  refine ⟨q, ?_, same⟩
  rw [← named, same.name]
  exact findProperty?_of_mem names inside

theorem Shape.Alike.back (alike : s.Alike s') (names : (s.properties.map (·.name)).Nodup) :
    Covers (fun q p => Ty.SameProperty p q) s'.properties s.properties := by
  obtain ⟨counts, properties, _⟩ := (Shape.alike_iff s s').mp alike
  exact Covers.back properties (Ty.properties_single names) counts

theorem Shape.Alike.property?_none (alike : s.Alike s') (names : (s.properties.map (·.name)).Nodup)
    {name : String} (absent : s.property? name = none) : s'.property? name = none := by
  refine findProperty?_eq_none.mpr fun present => findProperty?_eq_none.mp absent ?_
  obtain ⟨q, member, rfl⟩ := List.mem_map.mp present
  obtain ⟨p, inside, same⟩ := alike.back names q member
  exact List.mem_map.mpr ⟨p, inside, same.name⟩

theorem Property.declared_same {p q : Property Ty} (wf : p.ty.WellFormed) (same : Ty.SameProperty p q) :
    p.declared.Same q.declared := by
  have wfOther := wf.of_same same.ty
  rw [Property.declared, Property.declared, same.optional]
  split
  · refine Ty.union_same ?_ ?_ (.of_forall₂ (.cons same.ty (.cons (Ty.same_self _) .nil)))
    · simpa using ⟨wf, Ty.WellFormed.primitive .undefined⟩
    · simpa using ⟨wfOther, Ty.WellFormed.primitive .undefined⟩
  · exact same.ty

variable {holds weaker : Ty → Ty → Prop}
  (respects : ∀ a b a' b' : Ty, holds a b → a.Same a' → b.Same b' → weaker a' b')

include respects

theorem SlotMet.carry (wf : (Ty.object s).WellFormed) (wf' : (Ty.object s').WellFormed)
    (alike : s.Alike s') {slot slot' : Property Ty} (wfSlot : slot.ty.WellFormed)
    (same : Ty.SameProperty slot slot') (met : SlotMet holds s slot) : SlotMet weaker s' slot' := by
  have declared := Property.declared_same wfSlot same
  rw [SlotMet] at met ⊢
  rw [← same.name, ← same.optional]
  cases found : s.property? slot.name with
  | some property =>
      rw [found] at met
      obtain ⟨other, named, pair⟩ := alike.property? wf'.node found
      rw [named]
      refine ⟨fun given => met.1 ?_, respects _ _ _ _ met.2 pair.ty declared⟩
      rw [pair.optional, given]
  | none =>
      rw [found] at met
      rw [alike.property?_none wf.node found]
      rcases met with given | ⟨index, own, known⟩
      · exact Or.inl given
      · have signatures := ((Shape.alike_iff s s').mp alike).2.2.1
        obtain ⟨other, stands, value⟩ := exists_of_rel signatures own
        exact Or.inr ⟨other, stands, respects _ _ _ _ known value same.ty⟩

/-- A shape gives another what it asks for, whatever the keys of their index signatures. -/
theorem ShapesMet.carry (wfS : (Ty.object s).WellFormed) (wfS' : (Ty.object s').WellFormed)
    (wfT : (Ty.object t).WellFormed) (left : s.Alike s') (right : t.Alike t')
    (met : ShapesMet holds s t) : ShapesMet weaker s' t' := by
  have signatures := ((Shape.alike_iff t t').mp right).2.2.1
  constructor
  · intro slot' member
    obtain ⟨slot, inside, same⟩ := right.back wfT.node slot' member
    exact (met.slots slot inside).carry respects wfS wfS' left (wfT.property inside) same
  · intro index' found property' member
    obtain ⟨index, declared, value⟩ := exists_of_rel_right signatures found
    obtain ⟨property, inside, same⟩ := left.back wfS.node property' member
    exact respects _ _ _ _ (met.properties index declared property inside) same.ty value
  · intro index' own' found given
    obtain ⟨index, declared, value⟩ := exists_of_rel_right signatures found
    obtain ⟨own, stands, same⟩ := exists_of_rel_right ((Shape.alike_iff s s').mp left).2.2.1 given
    exact respects _ _ _ _ (met.index index own declared stands) same value

end Shapes

section Rules

theorem forall₂_carry {related carried : Ty → Ty → Prop} {as as' bs bs' : List Ty}
    (lefts : List.Forall₂ Ty.Same as as') (rights : List.Forall₂ Ty.Same bs bs')
    (carries : ∀ a ∈ as, ∀ b ∈ bs, ∀ a' b', related a b → a.Same a' → b.Same b' → carried a' b')
    (each : List.Forall₂ related as bs) : List.Forall₂ carried as' bs' := by
  induction each generalizing as' bs' with
  | nil =>
      cases lefts
      cases rights
      exact .nil
  | @cons a b as bs first rest ih =>
      cases lefts with
      | cons left lefts =>
          cases rights with
          | cons right rights =>
              refine .cons (carries a (.head _) b (.head _) _ _ first left right) (ih lefts rights ?_)
              intro c memberC d memberD
              exact carries c (.tail _ memberC) d (.tail _ memberD)

variable {aliases : AliasMap} {holds weaker : Ty → Ty → Prop} {value target value' target' : Ty}
  (wfValue : value.WellFormed) (wfTarget : target.WellFormed) (sameValue : value.Same value')
  (sameTarget : target.Same target')
  (respects : ∀ a b a' b' : Ty, holds a b → a.Same a' → b.Same b' → weaker a' b')
  (onMerged : ∀ merged shape, target.asShape? = some shape → aliases.merge value = .shape merged →
    holds (.object merged) target →
      ∃ other, aliases.merge value' = .shape other ∧ weaker (.object other) target')

include wfValue wfTarget sameValue sameTarget respects onMerged

/-- The rules give equal types what they give the types themselves, if merged shapes do. -/
theorem ByShape.carry (rule : ByShape aliases holds value target) :
    ByShape aliases weaker value' target' := by
  have wfValue' := wfValue.of_same sameValue
  have wfTarget' := wfTarget.of_same sameTarget
  cases rule with
  | ofUnion each =>
      obtain ⟨others, rfl, set⟩ := Ty.exists_unionOf_of_same wfValue sameValue
      refine .ofUnion fun n member => ?_
      obtain ⟨m, inside, same⟩ := set.back n member
      exact respects _ _ _ _ (each m inside) same sameTarget
  | @toUnion _ member _ single listed accepts =>
      obtain ⟨others, rfl, set⟩ := Ty.exists_unionOf_of_same wfTarget sameTarget
      obtain ⟨n, found, same⟩ := set.forth member listed
      have wfM := wfTarget.unionMember listed
      have wfN := wfTarget'.unionMember found
      refine .toUnion (Ty.isUnion_same sameValue ▸ single) found ?_
      rcases accepts with equal | accepted
      · have turned := Ty.same_symm wfM wfN same
        exact Or.inl (Ty.same_trans wfN wfM wfValue' turned
          (Ty.same_trans wfM wfValue wfValue' equal sameValue))
      · exact Or.inr (respects _ _ _ _ accepted sameValue same)
  | toIntersection single each =>
      obtain ⟨others, rfl, set⟩ := Ty.exists_intersectionOf_of_same wfTarget sameTarget
      refine .toIntersection (Ty.isUnion_same sameValue ▸ single) fun n member => ?_
      obtain ⟨m, inside, same⟩ := set.back n member
      exact respects _ _ _ _ (each m inside) sameValue same
  | @ofMember member _ _ noUnion noIntersection listed accepted =>
      obtain ⟨others, rfl, set⟩ := Ty.exists_intersectionOf_of_same wfValue sameValue
      obtain ⟨n, found, same⟩ := set.forth member listed
      exact .ofMember (Ty.isUnion_same sameTarget ▸ noUnion)
        (Ty.isIntersection_same sameTarget ▸ noIntersection) found
        (respects _ _ _ _ accepted same sameTarget)
  | @ofMerged _ _ merged shape shaped merges accepted =>
      obtain ⟨others, rfl, _⟩ := Ty.exists_intersectionOf_of_same wfValue sameValue
      obtain ⟨other, merges', known⟩ := onMerged merged shape shaped merges accepted
      obtain ⟨shape', shaped', _⟩ := Ty.exists_equal_shape sameTarget shaped
      exact .ofMerged shaped' merges' known
  | literalBase value =>
      obtain ⟨other, rfl, same⟩ := Ty.exists_literal_of_same sameValue
      rw [Ty.eq_of_same_primitive sameTarget, Literal.base_same same]
      exact .literalBase other
  | literal equal =>
      obtain ⟨a, rfl, left⟩ := Ty.exists_literal_of_same sameValue
      obtain ⟨b, rfl, right⟩ := Ty.exists_literal_of_same sameTarget
      exact .literal (Literal.same_trans (Literal.same_symm left) (Literal.same_trans equal right))
  | array element =>
      obtain ⟨a, rfl, left⟩ := Ty.exists_array_of_same sameValue
      obtain ⟨b, rfl, right⟩ := Ty.exists_array_of_same sameTarget
      exact .array (respects _ _ _ _ element left right)
  | tuple each =>
      obtain ⟨as, rfl, lefts⟩ := Ty.exists_tuple_of_same sameValue
      obtain ⟨bs, rfl, rights⟩ := Ty.exists_tuple_of_same sameTarget
      exact .tuple (forall₂_carry lefts rights (fun a _ b _ a' b' => respects a b a' b') each)
  | tupleArray each =>
      obtain ⟨as, rfl, lefts⟩ := Ty.exists_tuple_of_same sameValue
      obtain ⟨b, rfl, right⟩ := Ty.exists_array_of_same sameTarget
      refine .tupleArray fun n member => ?_
      obtain ⟨m, inside, same⟩ := Covers.of_forall₂ lefts.flip n member
      exact respects _ _ _ _ (each m inside) same right
  | sameClass valueShape targetShape valueClass targetClass =>
      obtain ⟨source', ownShape, left⟩ := Ty.exists_equal_shape sameValue valueShape
      obtain ⟨shape', otherShape, right⟩ := Ty.exists_equal_shape sameTarget targetShape
      have ownClass := ((Ty.same_object_iff _ _).mp left).2.2.2
      have otherClass := ((Ty.same_object_iff _ _).mp right).2.2.2
      exact .sameClass ownShape otherShape (ownClass.symm.trans valueClass)
        (otherClass.symm.trans targetClass)
  | shapes valueShape targetShape met =>
      obtain ⟨source', ownShape, left⟩ := Ty.exists_equal_shape sameValue valueShape
      obtain ⟨shape', otherShape, right⟩ := Ty.exists_equal_shape sameTarget targetShape
      exact .shapes ownShape otherShape (met.carry respects (wfValue.asShape valueShape)
        (wfValue'.asShape ownShape) (wfTarget.asShape targetShape) (.of_equal left) (.of_equal right))
  | anyFunction =>
      rw [Ty.eq_anyFunction_of_same sameValue, Ty.eq_anyFunction_of_same sameTarget]
      exact .anyFunction
  | ofAnyFunction =>
      obtain ⟨target', rfl, _⟩ := Ty.exists_function_of_same sameTarget
      rw [Ty.eq_anyFunction_of_same sameValue]
      exact .ofAnyFunction target'
  | toAnyFunction =>
      obtain ⟨source', rfl, _⟩ := Ty.exists_function_of_same sameValue
      rw [Ty.eq_anyFunction_of_same sameTarget]
      exact .toAnyFunction source'
  | @function source target params result back =>
      obtain ⟨source', rfl, ownParams, ownResult⟩ := Ty.exists_function_of_same sameValue
      obtain ⟨target', rfl, otherParams, otherResult⟩ := Ty.exists_function_of_same sameTarget
      refine .function (forall₂_carry ownParams otherParams ?_ params)
        (respects _ _ _ _ result ownResult otherResult) (respects _ _ _ _ back otherResult ownResult)
      intro a memberA b memberB a' b' identical left right
      rcases identical with equal | both
      · have wfA := wfValue.child (Ty.param_mem_children memberA)
        have wfB := wfTarget.child (Ty.param_mem_children memberB)
        have wfA' := wfA.of_same left
        exact Or.inl (Ty.same_trans wfA' wfA (wfB.of_same right) (Ty.same_symm wfA wfA' left)
          (Ty.same_trans wfA wfB (wfB.of_same right) equal right))
      · exact Or.inr ⟨respects _ _ _ _ both.1 left right, respects _ _ _ _ both.2 right left⟩
  | predicate parameter guard =>
      obtain ⟨guard', rfl⟩ := Ty.exists_predicate_of_same sameValue
      rw [Ty.eq_of_same_primitive sameTarget]
      exact .predicate parameter guard'
  | primitive kind =>
      rw [Ty.eq_of_same_primitive sameValue, Ty.eq_of_same_primitive sameTarget]
      exact .primitive kind

theorem Justified.carry (justified : Justified aliases holds value target) :
    Justified aliases weaker value' target' := by
  have wfValue' := wfValue.of_same sameValue
  have wfTarget' := wfTarget.of_same sameTarget
  cases justified with
  | anyTarget =>
      rw [Ty.eq_of_same_primitive sameTarget]
      exact .anyTarget value'
  | anyValue =>
      rw [Ty.eq_of_same_primitive sameValue]
      exact .anyValue target'
  | neverValue =>
      rw [Ty.eq_of_same_primitive sameValue]
      exact .neverValue target'
  | equal same =>
      refine .equal (Ty.same_trans wfValue' wfValue wfTarget'
        (Ty.same_symm wfValue wfValue' sameValue) ?_)
      exact Ty.same_trans wfValue wfTarget wfTarget' same sameTarget
  | byShape inhabited rule =>
      refine .byShape ?_ (rule.carry wfValue wfTarget sameValue sameTarget respects onMerged)
      rw [← Ty.isNever_same sameTarget, inhabited]

end Rules

section Questions

def Merged.shape? : Merged → Option (Shape Ty)
  | shape s => some s
  | any | notMergeable => none

variable (aliases : AliasMap)

/-- The queries that a comparison may come to. -/
inductive Asked (start : Query) : Query → Prop
  | start : Asked start start
  | premise {p q : Query} (asked : Asked start p)
    (undecided : (p.concrete aliases).settled? = none)
    (member : q ∈ (Rule.of aliases (p.concrete aliases)).queries) : Asked start q

/-- Whether a test holds of the questions within the given number of nested ones, and none is left. -/
def askedWithin (test : Query → Bool) : Nat → Query → Bool
  | 0, _ => false
  | levels + 1, q =>
    test q &&
      ((q.concrete aliases).settled?.isSome ||
        (Rule.of aliases (q.concrete aliases)).queries.all (askedWithin test levels))

theorem forall_asked_of_within {test : Query → Bool} (levels : Nat) {start : Query}
    (passed : askedWithin aliases test levels start = true) :
    ∀ q, Asked aliases start q → test q = true := by
  have reached (q : Query) (asked : Asked aliases start q) :
      ∃ left, askedWithin aliases test left q = true := by
    induction asked with
    | start => exact ⟨levels, passed⟩
    | @premise p q _ undecided member ih =>
        obtain ⟨left, tested⟩ := ih
        cases left with
        | zero => cases tested
        | succ left =>
            rw [askedWithin, undecided] at tested
            simp only [Option.isSome_none, Bool.false_or, Bool.and_eq_true, List.all_eq_true] at tested
            exact ⟨left, tested.2 q member⟩
  intro q asked
  obtain ⟨left, tested⟩ := reached q asked
  cases left with
  | zero => cases tested
  | succ left =>
      rw [askedWithin, Bool.and_eq_true] at tested
      exact tested.1

/-- If the merged shape of the value equals an object that is the target up to the key of an index
signature, then there is only one key to choose from. Only an intersection can have several. -/
def KeyClear (q : Query) : Prop :=
  ∀ shape ∈ q.target.objectShape?, ∀ merged ∈ (aliases.merge q.value).shape?,
    merged.Alike shape → aliases.OneKey q.value

instance (q : Query) : Decidable (KeyClear aliases q) :=
  inferInstanceAs (Decidable (∀ shape ∈ q.target.objectShape?,
    ∀ merged ∈ (aliases.merge q.value).shape?, merged.Alike shape → aliases.OneKey q.value))

/-- No comparison on the way hangs on which index signature comes first. -/
def KeysClear (start : Query) : Prop :=
  ∀ q, Asked aliases start q → KeyClear aliases (q.concrete aliases)

/-- Whether no comparison within the given number of nested questions hangs on a key, and none is
left. -/
def keysClearWithin : Nat → Query → Bool
  | 0, _ => false
  | levels + 1, q =>
    decide (KeyClear aliases (q.concrete aliases)) &&
      ((q.concrete aliases).settled?.isSome ||
        (Rule.of aliases (q.concrete aliases)).queries.all (keysClearWithin levels))

theorem keysClear_of_within (levels : Nat) {start : Query}
    (clear : keysClearWithin aliases levels start = true) : KeysClear aliases start := by
  have general (levels : Nat) (q : Query) : keysClearWithin aliases levels q =
      askedWithin aliases (fun p => decide (KeyClear aliases (p.concrete aliases))) levels q := by
    induction levels generalizing q with
    | zero => rfl
    | succ levels ih => rw [keysClearWithin, askedWithin, funext ih]
  rw [general] at clear
  intro q asked
  exact of_decide_eq_true (forall_asked_of_within aliases levels clear q asked)

/-- The merged shape of an intersection that equals an established one, with another key, is compared
with a target that it does not equal up to that key. -/
structure Rekeyed (value target : Ty) : Prop where
  exists_established : ∃ merged other shape, value = .object other ∧ target.asShape? = some shape ∧
    (Ty.object merged).WellFormed ∧ merged.Alike other ∧ Established aliases (.object merged) target
  unlike : ∀ other shape, value = .object other → target = .object shape → ¬ other.Alike shape

end Questions

section Steps

variable {aliases : AliasMap} (wf : aliases.WellFormed) {value target : Ty}
  (wfQuery : Query.WellFormed ⟨value, target⟩)

include wf wfQuery

/-- What is established is justified as it is written, by what is established or differs from that
by a key. -/
theorem Established.justified (known : Established aliases value target)
    (clear : KeyClear aliases (Query.concrete ⟨value, target⟩ aliases)) :
    Justified aliases (fun v t => Established aliases v t ∨ Rekeyed aliases v t)
      (aliases.concrete value) (aliases.concrete target) := by
  obtain ⟨v, t, left, right, justified⟩ := known.exists_justified wf wfQuery
  have wfPair := wfQuery.concrete wf
  have wfV := wfPair.value.of_same left
  have wfT := wfPair.target.of_same right
  have sameValue : v.Same (aliases.concrete value) := Ty.same_symm wfPair.value wfV left
  have sameTarget : t.Same (aliases.concrete target) := Ty.same_symm wfPair.target wfT right
  refine justified.carry wfV wfT sameValue sameTarget ?_ ?_
  · intro a b a' b' premise sameA sameB
    exact Or.inl (premise.2.of_same wf premise.1 sameA sameB)
  · intro merged shape shaped merges premise
    obtain ⟨other, merges', alike, equal⟩ := AliasMap.merge_same wf wfV sameValue merges
    have established := premise.2.of_same wf premise.1 (Ty.same_self _) sameTarget
    refine ⟨other, merges', ?_⟩
    by_cases shortcut : ∃ shape, aliases.concrete target = .object shape ∧ other.Alike shape
    · -- The merged shape may equal the target here, so its key counts; but there is only one.
      obtain ⟨object, target, close⟩ := shortcut
      have oneKey := clear object (by simp [Query.concrete, target, Ty.objectShape?]) other
        (by simp [Query.concrete, merges', Merged.shape?]) close
      exact Or.inl (premise.2.of_same wf premise.1 (equal oneKey) sameTarget)
    · obtain ⟨shape', shaped', _⟩ := Ty.exists_equal_shape sameTarget shaped
      refine Or.inr ⟨⟨merged, other, shape', rfl, shaped', premise.1.value, alike, established⟩, ?_⟩
      intro own object same target close
      cases same
      exact shortcut ⟨object, target, close⟩

/-- Where the merged shape does not equal the target up to the key, no rule looks at the key. -/
theorem Rekeyed.justified (known : Rekeyed aliases value target) :
    Justified aliases (Established aliases) (aliases.concrete value) (aliases.concrete target) := by
  obtain ⟨⟨merged, other, shape, rfl, shaped, wfMerged, alike, established⟩, unlike⟩ := known
  obtain ⟨v, t, left, right, justified⟩ :=
    established.exists_justified wf ⟨wfMerged, wfQuery.target⟩
  have unchanged (s : Shape Ty) : aliases.concrete (.object s) = .object s :=
    AliasMap.concrete_of_asShape? rfl
  rw [unchanged] at left ⊢
  rw [AliasMap.concrete_of_asShape? shaped] at right ⊢
  obtain ⟨s, shapeV, equalV⟩ := Ty.exists_equal_shape left rfl
  obtain ⟨u, shapeT, equalT⟩ := Ty.exists_equal_shape right shaped
  have wfV := wfMerged.of_same left
  have wfT := wfQuery.target.of_same right
  have wfS := wfV.asShape shapeV
  have wfU := wfT.asShape shapeT
  have wfShape := wfQuery.target.asShape shaped
  have ownAlike : s.Alike other :=
    (Shape.Alike.of_equal equalV).symm wfMerged wfS |>.trans wfS wfMerged wfQuery.value alike
  have targetAlike : u.Alike shape := (Shape.Alike.of_equal equalT).symm wfShape wfU
  rcases (justified_iff ⟨v, t⟩).mp justified with settled | ⟨_, met⟩
  · have equal : v.Same t := same_of_settled shapeV shapeT settled
    have turned := Ty.same_symm wfQuery.target wfT right
    have shortcut : (Ty.object merged).Same target :=
      Ty.same_trans wfMerged wfV wfQuery.target left (Ty.same_trans wfV wfT wfQuery.target equal turned)
    cases target with
    | object own =>
        have close : merged.Alike own := .of_equal shortcut
        have turned := alike.symm wfMerged wfQuery.value
        exact absurd (turned.trans wfQuery.value wfMerged wfQuery.target close)
          (unlike other own rfl rfl)
    | _ => cases shortcut
  · rw [structural_shapes shapeV shapeT, shapes_holds] at met
    refine .byShape (isNever_of_asShape? shaped) ?_
    rcases met with same | slots
    · obtain ⟨name, ownClass, targetClass⟩ := (sameClass_iff s u).mp same
      have own := ((Shape.alike_iff _ _).mp ownAlike).2.2.2
      have given := ((Shape.alike_iff _ _).mp targetAlike).2.2.2
      exact .sameClass rfl shaped (own.symm.trans ownClass) (given.symm.trans targetClass)
    · refine .shapes rfl shaped (slots.carry ?_ wfS wfQuery.value wfU ownAlike targetAlike)
      intro a b a' b' premise sameA sameB
      exact premise.2.of_same wf premise.1 sameA sameB

end Steps

namespace Context

section Order

variable (ctx : Context) (wf : ctx.aliases.WellFormed) {value target : Ty}

include wf

/-- What is established is granted wherever it is asked, if no answer hangs on the order of keys. -/
theorem accepts_of_established (wfQuery : Query.WellFormed ⟨value, target⟩)
    (clear : KeysClear ctx.aliases ⟨value, target⟩) (known : Established ctx.aliases value target) :
    ctx.Accepts value target := by
  let pairs : Set Query := { p | ∃ q : Query, p = q.concrete ctx.aliases ∧ q.WellFormed ∧
    Asked ctx.aliases ⟨value, target⟩ q ∧
      (Established ctx.aliases q.value q.target ∨ Rekeyed ctx.aliases q.value q.target) }
  refine ctx.accepts_of_justified pairs ?_ ⟨⟨value, target⟩, rfl, wfQuery, .start, Or.inl known⟩
  intro p member
  obtain ⟨q, rfl, wfPair, asked, either⟩ := member
  have justified : Justified ctx.aliases
      (fun v t => Established ctx.aliases v t ∨ Rekeyed ctx.aliases v t)
      (q.concrete ctx.aliases).value (q.concrete ctx.aliases).target := by
    rcases either with established | rekeyed
    · exact established.justified wf wfPair (clear q asked)
    · exact (rekeyed.justified wf wfPair).mono fun v t => Or.inl
  apply (justified_iff (q.concrete ctx.aliases)).mpr
  rcases (justified_iff (q.concrete ctx.aliases)).mp justified with settled | ⟨undecided, met⟩
  · exact Or.inl settled
  · refine Or.inr ⟨undecided, met.mono_of_mem ?_⟩
    intro premise inside found
    have wfPremise := Rule.of_wellFormed wf (wfPair.concrete wf) premise inside
    exact Or.inl ⟨premise, rfl, wfPremise, .premise asked undecided inside, found⟩

theorem compatible_of_same (wfQuery : Query.WellFormed ⟨value, target⟩) {value' target' : Ty}
    (sameValue : value.Same value') (sameTarget : target.Same target')
    (clear : KeysClear ctx.aliases ⟨value', target'⟩)
    (finished : (ctx.compatible value' target').cut = false)
    (accepted : (ctx.compatible value target).value = true) :
    (ctx.compatible value' target').value = true := by
  have wfOther : Query.WellFormed ⟨value', target'⟩ :=
    ⟨wfQuery.value.of_same sameValue, wfQuery.target.of_same sameTarget⟩
  have known := (established_of_compatible accepted).of_same wf wfQuery sameValue sameTarget
  exact ctx.compatible_of_accepts (ctx.accepts_of_established wf wfOther clear known) finished

/-- Equal types are compatible with equal types, in whatever order they are written, if no limit is
hit and no comparison hangs on which of several index signatures comes first. -/
theorem compatible_eq_of_same (wfQuery : Query.WellFormed ⟨value, target⟩) {value' target' : Ty}
    (sameValue : value.Same value') (sameTarget : target.Same target')
    (clear : KeysClear ctx.aliases ⟨value, target⟩)
    (clear' : KeysClear ctx.aliases ⟨value', target'⟩)
    (finished : (ctx.compatible value target).cut = false)
    (finished' : (ctx.compatible value' target').cut = false) :
    (ctx.compatible value target).value = (ctx.compatible value' target').value := by
  have wfOther : Query.WellFormed ⟨value', target'⟩ :=
    ⟨wfQuery.value.of_same sameValue, wfQuery.target.of_same sameTarget⟩
  have turnedValue := Ty.same_symm wfQuery.value wfOther.value sameValue
  have turnedTarget := Ty.same_symm wfQuery.target wfOther.target sameTarget
  rw [Bool.eq_iff_iff]
  constructor
  · exact ctx.compatible_of_same wf wfQuery sameValue sameTarget clear' finished'
  · exact ctx.compatible_of_same wf wfOther turnedValue turnedTarget clear finished

end Order

/-- Numbers under arbitrary names. -/
def counts : Ty := .object { index := some ⟨.string, .number⟩ }

/-- Numbers under arbitrary keys, next to a text. -/
def named (key : Ty) : Ty :=
  .object { properties := [⟨"name", .string, false⟩], index := some ⟨key, .number⟩ }

theorem counts_named_eq :
    (({} : Context).compatible (.intersectionOf [counts, named .string]) (named .string)).value =
        (({} : Context).compatible (.intersectionOf [named .string, counts]) (named .string)).value ∧
      (({} : Context).compatible (.intersectionOf [counts, named .string]) (named .string)).value = true := by
  have wf : ({} : Context).aliases.WellFormed := by decide
  have wfQuery : Query.WellFormed ⟨.intersectionOf [counts, named .string], named .string⟩ :=
    ⟨by decide +kernel, by decide +kernel⟩
  refine ⟨compatible_eq_of_same {} wf wfQuery (by decide +kernel) (Ty.same_self _) ?_ ?_
    (by decide +kernel) (by decide +kernel), by decide +kernel⟩
  · exact keysClear_of_within {} 4 (by decide +kernel)
  · exact keysClear_of_within {} 4 (by decide +kernel)

/-- With another key on one side, the order of the members decides: the merged shape has the key of
the first, and only with the key of the target does it equal the target, whose property does not have
the type of its own index signature. -/
theorem first_key_decides :
    (Ty.intersectionOf [counts, named .number]).WellFormed ∧
      (Ty.intersectionOf [named .number, counts]).WellFormed ∧ (named .string).WellFormed ∧
      (Ty.intersectionOf [counts, named .number]).Same (.intersectionOf [named .number, counts]) ∧
      (({} : Context).compatible (.intersectionOf [counts, named .number]) (named .string)).cut = false ∧
      (({} : Context).compatible (.intersectionOf [named .number, counts]) (named .string)).cut = false ∧
      (({} : Context).compatible (.intersectionOf [counts, named .number]) (named .string)).value = true ∧
      (({} : Context).compatible (.intersectionOf [named .number, counts]) (named .string)).value = false := by
  decide +kernel

end Context

end StructuralTypes
