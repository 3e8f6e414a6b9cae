import StructuralTypes.Proofs.Compatibility.Run
import StructuralTypes.Proofs.Freshness.Types
import StructuralTypes.Proofs.NormalForm.Aliases

set_option autoImplicit false

namespace StructuralTypes

def AliasDefinition.bare (d : AliasDefinition) : AliasDefinition := { d with body := d.body.bare }

/-- The definitions without marks in their bodies. -/
def AliasMap.bare (aliases : AliasMap) : AliasMap :=
  { aliases with definitions := aliases.definitions.map AliasDefinition.bare }

namespace AliasMap

variable (aliases : AliasMap)

section Resolution

theorem find?_bare (name : String) :
    aliases.bare.find? name = (aliases.find? name).map AliasDefinition.bare := by
  simp only [find?, AliasMap.bare, List.find?_map]
  rfl

theorem refName?_bare (ty : Ty) : ty.bare.refName? = ty.refName? := by
  cases ty <;> rfl

theorem follow_bare (left : Nat) (chain : List String) (ty : Ty) :
    aliases.bare.follow left chain ty.bare = (aliases.follow left chain ty).map Ty.bare := by
  fun_induction follow aliases left chain ty with
  | case1 left chain name undeclared =>
      rw [Ty.bare, follow, find?_bare, undeclared]
      rfl
  | case2 left chain name d found returns =>
      rw [Ty.bare, follow, find?_bare, found]
      simp only [Option.map_some, returns, if_true]
      rfl
  | case3 chain name d found new =>
      rw [Ty.bare, follow, find?_bare, found]
      simp only [Option.map_some, if_neg new]
      rfl
  | case4 chain name d found new left ih =>
      rw [Ty.bare, follow, find?_bare, found]
      simp only [Option.map_some, if_neg new]
      exact ih
  | case5 left chain ty notRef =>
      have single : ty.refName? = none := by
        cases ty with
        | ref name => exact (notRef name rfl).elim
        | _ => rfl
      rw [follow_of_refName?_eq_none (by rw [refName?_bare, single])]
      rfl

theorem resolve_bare (ty : Ty) : aliases.bare.resolve ty.bare = (aliases.resolve ty).bare := by
  have followed := aliases.follow_bare aliases.maxDepth [] ty
  have same : aliases.bare.tryResolve ty.bare = (aliases.tryResolve ty).map Ty.bare := followed
  rw [resolve, resolve, same]
  cases aliases.tryResolve ty <;> rfl

end Resolution

section Keys

theorem ofNames_bare (names : List String) : (Ty.ofNames names).bare = Ty.ofNames names := by
  rw [Ty.ofNames, Ty.union_bare, List.map_map]
  rfl

theorem mapM_bare {f g : Ty → Option Ty} (agree : ∀ ty : Ty, g ty.bare = (f ty).map Ty.bare)
    (tys : List Ty) : (tys.map Ty.bare).mapM g = (tys.mapM f).map (List.map Ty.bare) := by
  induction tys with
  | nil => rfl
  | cons ty tys ih =>
      rw [List.map_cons, List.mapM_cons, List.mapM_cons, agree, ih]
      cases f ty with
      | none => rfl
      | some first => cases tys.mapM f <;> rfl

variable {keys keys' : Ty → Option Ty}

theorem keyofOperand?_bare (agree : ∀ ty : Ty, keys' ty.bare = (keys ty).map Ty.bare) (ty : Ty) :
    aliases.bare.keyofOperand? keys' ty.bare = (aliases.keyofOperand? keys ty).map Ty.bare := by
  rw [keyofOperand?, keyofOperand?, resolve_bare]
  cases aliases.resolve ty with
  | keyof subject => exact agree subject
  | _ => rfl

theorem propertyNames_bare (ty : Ty) : ty.bare.propertyNames = ty.propertyNames := by
  cases ty with
  | object shape =>
      rw [Ty.bare_object, Ty.propertyNames, Ty.propertyNames, Shape.bare, List.map_map]
      rfl
  | _ => rfl

theorem isObject_bare (ty : Ty) : ty.bare.isObject = ty.isObject := by
  cases ty <;> rfl

/-- The keys of an intersection from its operands. -/
def joinedKeys? (keys : Ty → Option Ty) (operands : List Ty) : Option Ty := do
  let others ← (operands.filter (fun ty => !ty.isObject)).mapM keys
  return .union (.ofNames (operands.flatMap Ty.propertyNames).eraseDups :: others)

/-- The keys of an operand. -/
def operandKeys? (keys : Ty → Option Ty) : Ty → Option Ty
  | .object shape => some (.ofNames (shape.properties.map (·.name)))
  | .record key _ => some key
  | .any => some (.union [.string, .number])
  | .intersectionOf members => (members.mapM (aliases.keyofOperand? keys)).bind (joinedKeys? keys)
  | _ => some .string

theorem keyofStep?_eq (subject : Ty) :
    aliases.keyofStep? keys subject =
      (aliases.keyofOperand? keys subject).bind (aliases.operandKeys? keys) := by
  rw [keyofStep?]
  cases aliases.keyofOperand? keys subject with
  | none => rfl
  | some operand =>
      cases operand with
      | primitive kind => cases kind <;> rfl
      | _ => rfl

theorem joinedKeys?_bare (agree : ∀ ty : Ty, keys' ty.bare = (keys ty).map Ty.bare)
    (operands : List Ty) :
    joinedKeys? keys' (operands.map Ty.bare) = (joinedKeys? keys operands).map Ty.bare := by
  have others : (operands.map Ty.bare).filter (fun ty => !ty.isObject) =
      (operands.filter fun ty => !ty.isObject).map Ty.bare := by
    rw [List.filter_map]
    simp only [Function.comp_def, isObject_bare]
  have names : (operands.map Ty.bare).flatMap Ty.propertyNames =
      operands.flatMap Ty.propertyNames := by
    rw [List.flatMap_map]
    exact congrArg (operands.flatMap ·) (funext propertyNames_bare)
  rw [joinedKeys?, joinedKeys?, others, mapM_bare agree, names]
  cases (operands.filter fun ty => !ty.isObject).mapM keys with
  | none => rfl
  | some others =>
      show some _ = some _
      rw [Ty.union_bare, List.map_cons, ofNames_bare]

theorem operandKeys?_bare (agree : ∀ ty : Ty, keys' ty.bare = (keys ty).map Ty.bare) (operand : Ty) :
    aliases.bare.operandKeys? keys' operand.bare = (aliases.operandKeys? keys operand).map Ty.bare := by
  cases operand with
  | object shape =>
      have names : (shape.properties.map Property.bare).map (·.name) =
          shape.properties.map (·.name) := by
        rw [List.map_map]
        rfl
      rw [Ty.bare_object, operandKeys?, operandKeys?, Option.map_some, ofNames_bare, Shape.bare, names]
  | primitive kind => cases kind <;> rfl
  | intersectionOf members =>
      have operands := mapM_bare (keyofOperand?_bare aliases agree) members
      rw [Ty.bare_intersectionOf, operandKeys?, operandKeys?, operands]
      cases members.mapM (aliases.keyofOperand? keys) with
      | none => rfl
      | some operands => exact joinedKeys?_bare agree operands
  | _ => rfl

theorem keyofStep?_bare (agree : ∀ ty : Ty, keys' ty.bare = (keys ty).map Ty.bare) (subject : Ty) :
    aliases.bare.keyofStep? keys' subject.bare = (aliases.keyofStep? keys subject).map Ty.bare := by
  rw [keyofStep?_eq, keyofStep?_eq, keyofOperand?_bare aliases agree]
  cases aliases.keyofOperand? keys subject with
  | none => rfl
  | some operand => exact aliases.operandKeys?_bare agree operand

theorem keyofSubject?_bare (steps : Nat) (subject : Ty) :
    aliases.bare.keyofSubject? steps subject.bare =
      (aliases.keyofSubject? steps subject).map Ty.bare := by
  induction steps generalizing subject with
  | zero => rfl
  | succ steps ih => exact aliases.keyofStep?_bare ih subject

theorem bodySize_bare : aliases.bare.bodySize = aliases.bodySize := by
  have bodies : (aliases.definitions.map AliasDefinition.bare).map (·.body) =
      Ty.bareAll (aliases.definitions.map (·.body)) := by
    rw [Ty.bareAll_eq_map, List.map_map, List.map_map]
    rfl
  rw [bodySize, bodySize, AliasMap.bare, bodies, Ty.sizeAll_bare]

theorem keyofSubject_bare (subject : Ty) :
    aliases.bare.keyofSubject subject.bare = (aliases.keyofSubject subject).bare := by
  have steps : aliases.bare.keyofSteps subject.bare = aliases.keyofSteps subject := by
    rw [keyofSteps, keyofSteps, Ty.size_bare, bodySize_bare]
  rw [keyofSubject, keyofSubject, steps, keyofSubject?_bare]
  cases aliases.keyofSubject? (aliases.keyofSteps subject) subject <;> rfl

theorem concrete_bare (ty : Ty) : aliases.bare.concrete ty.bare = (aliases.concrete ty).bare := by
  rw [concrete, concrete, resolve_bare]
  cases aliases.resolve ty with
  | keyof subject =>
      show aliases.bare.resolve (aliases.bare.keyofSubject subject.bare) =
        (aliases.resolve (aliases.keyofSubject subject)).bare
      rw [keyofSubject_bare, resolve_bare]
  | _ => rfl

end Keys

end AliasMap

section Merging

variable {expand expand' : List String → String → List Ty × List String}

theorem leavesOfAll_bare {tys : List Ty}
    (each : ∀ ty ∈ tys, ∀ seen, ty.bare.leavesWith expand' seen =
      ((ty.leavesWith expand seen).1.map Ty.bare, (ty.leavesWith expand seen).2))
    (seen : List String) :
    Ty.leavesOfAll expand' seen (tys.map Ty.bare) =
      ((Ty.leavesOfAll expand seen tys).1.map Ty.bare, (Ty.leavesOfAll expand seen tys).2) := by
  induction tys generalizing seen with
  | nil => rfl
  | cons ty tys ih =>
      have rest := ih (fun other listed => each other (.tail _ listed)) (ty.leavesWith expand seen).2
      simp only [List.map_cons, Ty.leavesOfAll, each ty (.head _) seen, rest, List.map_append]

theorem leavesWith_bare
    (agree : ∀ seen name, expand' seen name = ((expand seen name).1.map Ty.bare, (expand seen name).2))
    (ty : Ty) (seen : List String) :
    ty.bare.leavesWith expand' seen =
      ((ty.leavesWith expand seen).1.map Ty.bare, (ty.leavesWith expand seen).2) := by
  induction ty using Ty.childrenInduction generalizing seen with
  | step ty ih =>
      cases ty with
      | intersectionOf members =>
          rw [Ty.bare_intersectionOf, Ty.leavesWith, Ty.leavesWith]
          exact leavesOfAll_bare ih seen
      | ref name =>
          rw [Ty.bare, Ty.leavesWith, Ty.leavesWith]
          split
          · rfl
          · exact agree _ _
      | _ => rfl

theorem AliasMap.expandLeaves_bare (aliases : AliasMap) (left : Nat) (seen : List String)
    (name : String) :
    aliases.bare.expandLeaves left seen name =
      ((aliases.expandLeaves left seen name).1.map Ty.bare, (aliases.expandLeaves left seen name).2) := by
  induction left generalizing seen name with
  | zero => rfl
  | succ left ih =>
      have resolved := aliases.resolve_bare (.ref name)
      have same : (Ty.ref name).bare = .ref name := rfl
      rw [same] at resolved
      rw [expandLeaves, expandLeaves, resolved]
      cases aliases.resolve (.ref name) with
      | ref other => rfl
      | _ => exact leavesWith_bare ih _ seen

theorem AliasMap.leaves_bare (aliases : AliasMap) (ty : Ty) :
    aliases.bare.leaves ty.bare = (aliases.leaves ty).map Ty.bare := by
  have count : aliases.bare.size = aliases.size := by
    rw [AliasMap.size, AliasMap.size, AliasMap.bare, List.length_map]
  rw [leaves, leaves, count, leavesWith_bare (aliases.expandLeaves_bare _)]

theorem findProperty?_bare (name : String) (properties : List (Property Ty)) :
    findProperty? name (properties.map Property.bare) =
      (findProperty? name properties).map Property.bare := by
  rw [findProperty?, findProperty?, List.find?_map]
  rfl

theorem putProperty_bare (property : Property Ty) (properties : List (Property Ty)) :
    putProperty property.bare (properties.map Property.bare) =
      (putProperty property properties).map Property.bare := by
  induction properties with
  | nil => rfl
  | cons first rest ih =>
      have same : (first.bare.name = property.bare.name) ↔ (first.name = property.name) := Iff.rfl
      rw [List.map_cons, putProperty, putProperty, ih]
      simp only [same]
      split <;> rfl

theorem meetProperty_bare (properties : List (Property Ty)) (property : Property Ty) :
    meetProperty (properties.map Property.bare) property.bare =
      (meetProperty properties property).map Property.bare := by
  have name : property.bare.name = property.name := rfl
  rw [meetProperty, meetProperty, name, findProperty?_bare]
  cases findProperty? property.name properties with
  | none =>
      show properties.map Property.bare ++ [property.bare] = _
      rw [List.map_append, List.map_singleton]
  | some first =>
      rw [Option.map_some, ← putProperty_bare]
      simp only [Property.bare, Ty.intersection_bare, List.map_cons, List.map_nil]

theorem foldl_meetProperty_bare (properties others : List (Property Ty)) :
    (others.map Property.bare).foldl meetProperty (properties.map Property.bare) =
      (others.foldl meetProperty properties).map Property.bare := by
  induction others generalizing properties with
  | nil => rfl
  | cons other others ih =>
      rw [List.map_cons, List.foldl_cons, List.foldl_cons, meetProperty_bare, ih]

theorem meetIndex_bare (first second : Option (IndexSignature Ty)) :
    meetIndex (first.map IndexSignature.bare) (second.map IndexSignature.bare) =
      (meetIndex first second).map IndexSignature.bare := by
  cases first with
  | none => rfl
  | some own =>
      cases second with
      | none => rfl
      | some other =>
          simp only [Option.map_some, meetIndex, IndexSignature.bare, Ty.intersection_bare,
            List.map_cons, List.map_nil]

theorem Shape.meet_bare (first second : Shape Ty) :
    first.bare.meet second.bare = (first.meet second).bare := by
  simp only [Shape.meet, Shape.bare, foldl_meetProperty_bare, meetIndex_bare]

theorem foldl_meet_bare (shape : Shape Ty) (shapes : List (Shape Ty)) :
    (shapes.map Shape.bare).foldl Shape.meet shape.bare = (shapes.foldl Shape.meet shape).bare := by
  induction shapes generalizing shape with
  | nil => rfl
  | cons other others ih =>
      rw [List.map_cons, List.foldl_cons, List.foldl_cons, Shape.meet_bare, ih]

def Merged.bare : Merged → Merged
  | shape s => shape s.bare
  | any => any
  | notMergeable => notMergeable

theorem mergeLeaves_bare (leaves : List Ty) :
    mergeLeaves (leaves.map Ty.bare) = (mergeLeaves leaves).bare := by
  have unshaped : (leaves.map Ty.bare).any (fun leaf => leaf.asShape?.isNone) =
      leaves.any (fun leaf => leaf.asShape?.isNone) := by
    rw [List.any_map]
    refine congrArg leaves.any (funext fun leaf => ?_)
    rw [Function.comp_apply, Ty.asShape?_bare, Option.isNone_map]
  have shapes : (leaves.map Ty.bare).filterMap Ty.asShape? =
      (leaves.filterMap Ty.asShape?).map Shape.bare := by
    rw [List.filterMap_map, List.map_filterMap]
    exact congrArg (leaves.filterMap ·) (funext Ty.asShape?_bare)
  rw [mergeLeaves, mergeLeaves, Ty.any_isAny_bare, unshaped, shapes]
  split
  · rfl
  · split
    · rfl
    · exact congrArg Merged.shape (foldl_meet_bare {} _)

theorem AliasMap.merge_bare (aliases : AliasMap) (ty : Ty) :
    aliases.bare.merge ty.bare = (aliases.merge ty).bare := by
  rw [merge, merge, leaves_bare, mergeLeaves_bare]

end Merging

section Rules

def Query.bare (q : Query) : Query := ⟨q.value.bare, q.target.bare⟩

def Demand.bare : Demand → Demand
  | refuse => refuse
  | query q => query q.bare

def Rule.bare : Rule → Rule
  | allOf demands => allOf (demands.map Demand.bare)
  | anyOf queries => anyOf (queries.map Query.bare)

namespace Query

theorem concrete_bare (q : Query) (aliases : AliasMap) :
    q.bare.concrete aliases.bare = (q.concrete aliases).bare := by
  simp only [concrete, Query.bare, AliasMap.concrete_bare]

theorem settled?_bare (q : Query) : q.bare.settled? = q.settled? := by
  simp only [settled?, Query.bare, Ty.isAny_bare, Ty.isNever_bare, Ty.same_bare]

theorem beq_bare (p q : Query) : (p.bare == q.bare) = (p == q) := by
  show (p.value.bare.same q.value.bare && p.target.bare.same q.target.bare) = _
  rw [Ty.same_bare, Ty.same_bare]
  rfl

end Query

namespace Rule

theorem verdict_bare (answer : Bool) : (verdict answer).bare = verdict answer := by
  cases answer <;> rfl

theorem allQueries_bare (queries : List Query) :
    (allQueries queries).bare = allQueries (queries.map Query.bare) := by
  simp only [allQueries, Rule.bare, List.map_map]
  rfl

theorem unionTarget_bare (value : Ty) (members : List Ty) :
    unionTarget value.bare (members.map Ty.bare) = (unionTarget value members).bare := by
  rw [unionTarget, unionTarget, Ty.isAmong_bare]
  split
  · rfl
  · simp only [Rule.bare, List.map_map]
    rfl

theorem intersectionSource_bare (aliases : AliasMap) (members : List Ty) (target : Ty) :
    intersectionSource aliases.bare (members.map Ty.bare) target.bare =
      (intersectionSource aliases members target).bare := by
  have merged := aliases.merge_bare (.intersectionOf members)
  rw [Ty.bare_intersectionOf] at merged
  rw [intersectionSource, intersectionSource, Ty.asShape?_bare, merged]
  cases target.asShape? with
  | none =>
      simp only [Rule.bare, Option.map_none, List.append_nil, List.map_map]
      rfl
  | some shape =>
      cases aliases.merge (.intersectionOf members) with
      | shape own =>
          simp only [Rule.bare, Option.map_some, Merged.bare, List.map_append, List.map_map,
            List.map_singleton, Query.bare, Ty.bare_object]
          rfl
      | _ =>
          simp only [Rule.bare, Option.map_some, Merged.bare, List.append_nil, List.map_map]
          rfl

theorem propertyDemands_bare (source : Shape Ty) (slot : Property Ty) :
    propertyDemands source.bare slot.bare = (propertyDemands source slot).map Demand.bare := by
  have found : source.bare.property? slot.bare.name =
      (source.property? slot.name).map Property.bare := findProperty?_bare _ _
  rw [propertyDemands, propertyDemands, found]
  have optional : slot.bare.optional = slot.optional := rfl
  cases source.property? slot.name with
  | some property =>
      have given : property.bare.optional = property.optional := rfl
      simp only [Option.map_some, given, optional, Property.declared_bare]
      split <;> rfl
  | none =>
      simp only [Option.map_none, optional, Shape.bare]
      split
      · rfl
      · cases source.index <;> rfl

theorem indexDemands_bare (source : Shape Ty) (index : IndexSignature Ty) :
    indexDemands source.bare index.bare = (indexDemands source index).map Demand.bare := by
  simp only [indexDemands, Shape.bare, List.map_append, List.map_map]
  cases source.index <;> rfl

theorem shapes_bare (source target : Shape Ty) :
    shapes source.bare target.bare = (shapes source target).bare := by
  have classes : sameClass source.bare target.bare = sameClass source target := rfl
  have slots : (target.properties.map Property.bare).flatMap (propertyDemands source.bare) =
      (target.properties.flatMap (propertyDemands source)).map Demand.bare := by
    rw [List.flatMap_map, List.map_flatMap]
    exact congrArg (target.properties.flatMap ·) (funext (propertyDemands_bare source))
  have index : (target.index.map IndexSignature.bare).toList.flatMap (indexDemands source.bare) =
      (target.index.toList.flatMap (indexDemands source)).map Demand.bare := by
    cases target.index with
    | none => rfl
    | some index =>
        simp only [Option.map_some, Option.toList_some, List.flatMap_singleton,
          indexDemands_bare]
  rw [shapes, shapes, classes]
  split
  · exact (verdict_bare true).symm
  · show Rule.allOf (_ ++ _) = _
    rw [Rule.bare, List.map_append, ← slots, ← index]
    rfl

theorem identical_bare (a b : Ty) :
    identical a.bare b.bare = (identical a b).map Query.bare := by
  rw [identical, identical, Ty.same_bare]
  split <;> rfl

theorem signatures_bare (source target : Signature Ty) :
    signatures source.bare target.bare = (signatures source target).bare := by
  have params : (source.params.map Ty.bare).zip (target.params.map Ty.bare) =
      (source.params.zip target.params).map (Prod.map Ty.bare Ty.bare) := List.zip_map ..
  have each : ((source.params.zip target.params).map (Prod.map Ty.bare Ty.bare)).flatMap
        (fun pair => identical pair.1 pair.2) =
      ((source.params.zip target.params).flatMap fun pair => identical pair.1 pair.2).map
        Query.bare := by
    rw [List.flatMap_map, List.map_flatMap]
    exact congrArg ((source.params.zip target.params).flatMap ·)
      (funext fun pair => identical_bare pair.1 pair.2)
  rw [signatures, signatures]
  simp only [Signature.bare, List.length_map]
  split
  · rw [allQueries_bare, List.map_append, params]
    exact congrArg (fun front => allQueries (front ++ _)) each
  · rfl

theorem structural_bare (value target : Ty) :
    structural value.bare target.bare = (structural value target).bare := by
  cases value with
  | object source =>
      cases target with
      | object shape => simp only [Ty.bare_object, structural, shapes_bare]
      | record key value =>
          rw [Ty.bare_object]
          exact shapes_bare source (.ofRecord key value)
      | _ =>
          rw [Ty.bare_object]
          rfl
  | record key value =>
      cases target with
      | object shape =>
          rw [Ty.bare_object]
          exact shapes_bare (.ofRecord key value) shape
      | record key' value' => exact shapes_bare (.ofRecord key value) (.ofRecord key' value')
      | _ => rfl
  | function source =>
      cases target with
      | function other => simp only [Ty.bare_function, structural, signatures_bare]
      | _ => rfl
  | tuple elements =>
      cases target with
      | tuple others =>
          have pairs : (elements.map Ty.bare).zip (others.map Ty.bare) =
              (elements.zip others).map (Prod.map Ty.bare Ty.bare) := List.zip_map ..
          simp only [Ty.bare_tuple, structural, List.length_map]
          split
          · rw [allQueries_bare, pairs, List.map_map, List.map_map]
            rfl
          · rfl
      | array element =>
          rw [Ty.bare_tuple, Ty.bare, structural, structural, allQueries_bare, List.map_map,
            List.map_map]
          rfl
      | _ => rfl
  | primitive kind =>
      cases target with
      | primitive other => exact (verdict_bare _).symm
      | _ => rfl
  | literal literal =>
      cases target with
      | primitive kind => exact (verdict_bare _).symm
      | literal other => exact (verdict_bare _).symm
      | _ => rfl
  | predicate parameter guard =>
      cases target with
      | primitive kind => cases kind <;> rfl
      | _ => rfl
  | _ => cases target <;> rfl

theorem of_bare (aliases : AliasMap) (q : Query) :
    Rule.of aliases.bare q.bare = (Rule.of aliases q).bare := by
  obtain ⟨value, target⟩ := q
  show Rule.of aliases.bare ⟨value.bare, target.bare⟩ = _
  have queries {tys : List Ty} : (allQueries (tys.map (⟨·, target⟩))).bare =
      allQueries ((tys.map Ty.bare).map (⟨·, target.bare⟩)) := by
    rw [allQueries_bare, List.map_map, List.map_map]
    rfl
  by_cases sources : value.isUnion = true
  · cases value with
    | unionOf members => rw [of_unionSource, Ty.bare_unionOf, of_unionSource, queries]
    | _ => cases sources
  · have single : value.isUnion = false := by simpa using sources
    have single' : value.bare.isUnion = false := by rw [Ty.isUnion_bare, single]
    cases target with
    | unionOf members =>
        rw [of_unionTarget _ _ single, Ty.bare_unionOf, of_unionTarget _ _ single', unionTarget_bare]
    | intersectionOf members =>
        rw [of_intersectionTarget _ _ single, Ty.bare_intersectionOf,
          of_intersectionTarget _ _ single', allQueries_bare, List.map_map, List.map_map]
        rfl
    | _ =>
        by_cases several : value.isIntersection = true
        · cases value with
          | intersectionOf members =>
              rw [of_intersectionSource _ _ rfl rfl, Ty.bare_intersectionOf,
                of_intersectionSource _ _ rfl rfl, intersectionSource_bare]
          | _ => cases several
        · have plain : value.isIntersection = false := by simpa using several
          have plain' : value.bare.isIntersection = false := by rw [Ty.isIntersection_bare, plain]
          rw [of_structural _ single plain rfl rfl, of_structural _ single' plain' rfl rfl,
            structural_bare]

end Rule

end Rules

section Walks

/-- The walk inside of the same queries without marks. -/
def Walk.bare (walk : Walk Query) : Walk Query :=
  { walk with visiting := walk.visiting.map Query.bare }

theorem contains_bare (queries : List Query) (q : Query) :
    (queries.map Query.bare).contains q.bare = queries.contains q := by
  induction queries with
  | nil => rfl
  | cons p queries ih => rw [List.map_cons, List.contains_cons, List.contains_cons, Query.beq_bare, ih]

theorem erase_bare (queries : List Query) (q : Query) :
    (queries.map Query.bare).erase q.bare = (queries.erase q).map Query.bare := by
  induction queries with
  | nil => rfl
  | cons p queries ih =>
      rw [List.map_cons, List.erase_cons, List.erase_cons, Query.beq_bare, ih]
      split <;> rfl

theorem Walk.enter_bare (walk : Walk Query) (q : Query) :
    walk.bare.enter q.bare = ((walk.enter q).1, (walk.enter q).2.bare) := by
  simp only [Walk.enter, Walk.bare, contains_bare, List.length_map]
  repeat' split
  all_goals rfl

theorem Walk.leave_bare (walk : Walk Query) (q : Query) :
    walk.bare.leave q.bare = (walk.leave q).bare := by
  simp only [Walk.leave, Walk.bare, erase_bare]

/-- The same outcome, with the marks taken off the walk. -/
def unmarked (outcome : Bool × Walk Query) : Bool × Walk Query := (outcome.1, outcome.2.bare)

namespace Rule

variable {answer answer' : Answer}

theorem runAll_bare
    (agree : ∀ (q : Query) (walk : Walk Query), answer' q.bare walk.bare = unmarked (answer q walk))
    (demands : List Demand) (walk : Walk Query) :
    runAll answer' (demands.map Demand.bare) walk.bare = unmarked (runAll answer demands walk) := by
  induction demands generalizing walk with
  | nil => rfl
  | cons demand demands ih =>
      cases demand with
      | refuse => rfl
      | query q =>
          rw [List.map_cons, Demand.bare, runAll, runAll, agree, unmarked]
          obtain ⟨yes, after⟩ := answer q walk
          cases yes with
          | true => exact ih after
          | false => rfl

theorem runAny_bare
    (agree : ∀ (q : Query) (walk : Walk Query), answer' q.bare walk.bare = unmarked (answer q walk))
    (queries : List Query) (walk : Walk Query) :
    runAny answer' (queries.map Query.bare) walk.bare = unmarked (runAny answer queries walk) := by
  induction queries generalizing walk with
  | nil => rfl
  | cons q queries ih =>
      rw [List.map_cons, runAny, runAny, agree, unmarked]
      obtain ⟨yes, after⟩ := answer q walk
      cases yes with
      | true => rfl
      | false => exact ih after

theorem run_bare
    (agree : ∀ (q : Query) (walk : Walk Query), answer' q.bare walk.bare = unmarked (answer q walk))
    (rule : Rule) (walk : Walk Query) :
    rule.bare.run answer' walk.bare = unmarked (rule.run answer walk) := by
  cases rule with
  | allOf demands => exact runAll_bare agree demands walk
  | anyOf queries => exact runAny_bare agree queries walk

end Rule

namespace Context

/-- The settings with definitions that have no marks. -/
def bare (ctx : Context) : Context := { ctx with aliases := ctx.aliases.bare }

variable (ctx : Context)

theorem check_bare (levels : Nat) (q : Query) (walk : Walk Query) :
    ctx.bare.check levels q.bare walk.bare = unmarked (ctx.check levels q walk) := by
  induction levels generalizing q walk with
  | zero => rfl
  | succ levels ih =>
      have concrete : q.bare.concrete ctx.bare.aliases = (q.concrete ctx.aliases).bare :=
        q.concrete_bare ctx.aliases
      have rule : Rule.of ctx.bare.aliases (q.concrete ctx.aliases).bare =
          (Rule.of ctx.aliases (q.concrete ctx.aliases)).bare := Rule.of_bare ctx.aliases _
      rw [check, check]
      dsimp only
      rw [concrete, Query.settled?_bare]
      cases (q.concrete ctx.aliases).settled? with
      | some answer => rfl
      | none =>
          rw [Walk.enter_bare, rule]
          obtain ⟨entry, inside⟩ := walk.enter (q.concrete ctx.aliases)
          cases entry with
          | entered =>
              show (((Rule.of ctx.aliases (q.concrete ctx.aliases)).bare.run
                  (ctx.bare.check levels) inside.bare).1, _) = _
              rw [Rule.run_bare ih, unmarked, Walk.leave_bare]
              rfl
          | _ => rfl

/-- Marks have no influence on an answer, nor on whether it was cut short. -/
theorem compatible_bare (value target : Ty) :
    ctx.bare.compatible value.bare target.bare = ctx.compatible value target := by
  have unfolded (c : Context) (v t : Ty) : c.compatible v t =
      ⟨(c.check c.levels ⟨v, t⟩ c.walk).1, (c.check c.levels ⟨v, t⟩ c.walk).2.exceeded⟩ := rfl
  have outcome : ctx.bare.check ctx.bare.levels ⟨value.bare, target.bare⟩ ctx.bare.walk =
      unmarked (ctx.check ctx.levels ⟨value, target⟩ ctx.walk) :=
    ctx.check_bare ctx.levels ⟨value, target⟩ ctx.walk
  rw [unfolded, unfolded, outcome]
  rfl

/-- A literal is compatible with what it is compatible with after widening, and with nothing else. -/
theorem compatible_widenFreshness {value : Ty} (wf : value.WellFormed) (target : Ty) :
    ctx.compatible value.widenFreshness target = ctx.compatible value target := by
  rw [← compatible_bare, Ty.widenFreshness_bare wf, compatible_bare]

end Context

end Walks

end StructuralTypes
