import StructuralTypes.Proofs.Compatibility.Coinduction
import StructuralTypes.Proofs.Freshness.Compatibility
import StructuralTypes.Proofs.ObjectLiteral.Checks

/-!
The checks compare a property with one slot: not with the index signature beside it, and not with the
single members of an intersection whose merged shape has the slot. They look neither at whether a
property of the literal is optional nor at the literal's own index signature.
-/

set_option autoImplicit false

namespace StructuralTypes

namespace Context

open ObjectLiteral

variable (ctx : Context)

section Conditions

/-- What a comparison of a literal asks once the target is concrete. -/
def question (literal : Shape Ty) (target : Ty) : Query :=
  ⟨.object literal, ctx.aliases.concrete target⟩

/-- A query is derived inside of the question for a literal. -/
abbrev Inside (around : List Query) (literal : Shape Ty) (target value other : Ty) : Prop :=
  Derivable ctx.aliases (ctx.question literal target :: around) ⟨value, other⟩

/-- Compatibility of a literal with an object or a record that asks for nothing. -/
def Exempt (literal : Shape Ty) (target : Ty) : Prop :=
  (Ty.object literal).Same target ∨
    ∃ shape, target.asShape? = some shape ∧ Rule.sameClass literal shape = true

/-- A shape asks for a property of a literal as the given slot says. -/
def Asks (shape : Shape Ty) (p slot : Property Ty) : Prop :=
  slot ∈ shape.properties ∧ slot.name = p.name ∨
    ∃ index, shape.index = some index ∧ slot = { name := p.name, ty := index.value }

/-- The questions of a shape that are left out when a literal is checked against the shape `checked`
in its place have positive answers. -/
structure SkippedMet (holds : Ty → Ty → Prop) (literal checked shape : Shape Ty) : Prop where
  /-- The checks do not look at whether a property of the literal is optional. -/
  required : ∀ slot ∈ shape.properties, ∀ p, literal.property? slot.name = some p →
    p.optional = true → slot.optional = true
  /-- A property is checked against one slot, its own or else the index signature's. -/
  others : ∀ p ∈ literal.properties, ∀ slot, Asks shape p slot →
    slot? checked p.name ≠ some slot → holds p.ty slot.declared
  /-- The checks do not look at the literal's own index signature. -/
  index : ∀ index own, shape.index = some index → literal.index = some own →
    holds own.value index.value

mutual

/-- The checks of a literal against a target, together with the questions that they leave out, cover
what compatibility asks inside of the queries `around`. -/
inductive Thorough : List Query → Shape Ty → Ty → Prop
  /-- The question is asked inside of itself. -/
  | known {around : List Query} {literal : Shape Ty} {target : Ty}
    (undecided : (ctx.question literal target).settled? = none)
    (inside : around.contains (ctx.question literal target) = true) : Thorough around literal target
  /-- Without a shape to check against, the check is a comparison with the concrete target. -/
  | compared {around : List Query} {literal : Shape Ty} {target : Ty}
    (unshaped : ctx.aliases.checkedShape? (ctx.aliases.concrete target) = none)
    (single : (ctx.aliases.concrete target).isUnion = false)
    (apart : (ctx.aliases.concrete target).isIntersection = true →
      ctx.aliases.merge (ctx.aliases.concrete target) = .notMergeable)
    (stable : ctx.aliases.concrete (ctx.aliases.concrete target) = ctx.aliases.concrete target) :
    Thorough around literal target
  /-- An intersection with `any` in it is not checked at all. -/
  | unchecked {around : List Query} {literal : Shape Ty} {target : Ty} {members : List Ty}
    (resolved : ctx.aliases.concrete target = .intersectionOf members)
    (merges : ctx.aliases.merge (.intersectionOf members) = .any)
    (each : ∀ m ∈ members, ctx.Inside around literal target (.object literal) m) :
    Thorough around literal target
  /-- One member of a union is enough. If the literal has findings there, it is compared. -/
  | member {around : List Query} {literal : Shape Ty} {target m : Ty} {members : List Ty}
    (resolved : ctx.aliases.concrete target = .unionOf members) (listed : m ∈ members)
    (checked : ctx.Clean literal m → Thorough (ctx.question literal target :: around) literal m)
    (otherwise : ¬ ctx.Clean literal m → ctx.Inside around literal target (.object literal) m) :
    Thorough around literal target
  /-- Each object that a shape is checked in the place of gets what it asks for. -/
  | shape {around : List Query} {literal checked : Shape Ty} {target : Ty}
    (against : ctx.aliases.checkedShape? (ctx.aliases.concrete target) = some checked)
    (met : Met checked around literal target) : Thorough around literal target

/-- What a part of a target asks is covered when the literal is checked against the shape `checked`. -/
inductive Met : Shape Ty → List Query → Shape Ty → Ty → Prop
  | known {checked : Shape Ty} {around : List Query} {literal : Shape Ty} {target : Ty}
    (undecided : (ctx.question literal target).settled? = none)
    (inside : around.contains (ctx.question literal target) = true) : Met checked around literal target
  | exempt {checked : Shape Ty} {around : List Query} {literal : Shape Ty} {target : Ty}
    (exempt : Exempt literal (ctx.aliases.concrete target)) : Met checked around literal target
  | parts {checked : Shape Ty} {around : List Query} {literal : Shape Ty} {target : Ty}
    {members : List Ty} (resolved : ctx.aliases.concrete target = .intersectionOf members)
    (each : ∀ m ∈ members, Met checked (ctx.question literal target :: around) literal m) :
    Met checked around literal target
  /-- A literal inside of the literal has been checked against its slot. -/
  | object {checked : Shape Ty} {around : List Query} {literal shape : Shape Ty} {target : Ty}
    (shaped : (ctx.aliases.concrete target).asShape? = some shape)
    (skipped : SkippedMet (ctx.Inside around literal target) literal checked shape)
    (nested : ∀ p ∈ literal.properties, ∀ own, p.ty = .object own → p.ty.isFreshLiteral = true →
      ∀ slot, Asks shape p slot → slot? checked p.name = some slot →
        Thorough (ctx.question literal target :: around) own slot.declared) :
    Met checked around literal target

end

end Conditions

section Acceptance

variable {ctx} {literal checked : Shape Ty} {around : List Query} {target : Ty}

theorem concrete_question :
    Query.concrete ⟨.object literal, target⟩ ctx.aliases = ctx.question literal target := by
  rw [Query.concrete, AliasMap.concrete_of_asShape? rfl, question]

theorem derivable_of_known (undecided : (ctx.question literal target).settled? = none)
    (inside : around.contains (ctx.question literal target) = true) :
    Derivable ctx.aliases around ⟨.object literal, target⟩ := by
  rw [← concrete_question] at undecided inside
  exact .cycle undecided inside

theorem derivable_of_rule
    (justified : Justified ctx.aliases (ctx.Inside around literal target) (.object literal)
      (ctx.aliases.concrete target)) : Derivable ctx.aliases around ⟨.object literal, target⟩ := by
  apply Derivable.ofJustified
  rw [concrete_question]
  exact justified

theorem justified_of_exempt {holds : Ty → Ty → Prop} (exempt : Exempt literal target) :
    Justified ctx.aliases holds (.object literal) target := by
  rcases exempt with same | ⟨shape, shaped, classes⟩
  · exact .equal same
  · obtain ⟨name, source, target⟩ := (sameClass_iff _ _).mp classes
    exact .byShape (isNever_of_asShape? shaped) (.sameClass rfl shaped source target)

/-- A literal that was checked against a shape is justified against an object that the shape stands
for, if what was left out is met too. -/
theorem justified_of_skippedMet {holds : Ty → Ty → Prop} {shape : Shape Ty}
    (shaped : target.asShape? = some shape) (skipped : SkippedMet holds literal checked shape)
    (present : ∀ name, Requires shape.properties name → literal.property? name ≠ none)
    (own : ∀ p ∈ literal.properties, ∀ slot, Asks shape p slot →
      slot? checked p.name = some slot → holds p.ty slot.declared) :
    Justified ctx.aliases holds (.object literal) target := by
  have answered (p : Property Ty) (listed : p ∈ literal.properties) (slot : Property Ty)
      (asks : Asks shape p slot) : holds p.ty slot.declared := by
    by_cases same : slot? checked p.name = some slot
    · exact own p listed slot asks same
    · exact skipped.others p listed slot asks same
  refine .byShape (isNever_of_asShape? shaped) (.shapes rfl shaped ⟨?_, ?_, skipped.index⟩)
  · intro slot member
    unfold SlotMet
    cases found : literal.property? slot.name with
    | some p =>
        obtain ⟨listed, named⟩ := mem_names_of_findProperty? found
        exact ⟨skipped.required slot member p found,
          answered p listed slot (Or.inl ⟨member, named.symm⟩)⟩
    | none =>
        by_cases optional : slot.optional = true
        · exact Or.inl optional
        · have needed : Requires shape.properties slot.name :=
            ⟨slot, member, rfl, by simpa using optional⟩
          exact absurd found (present slot.name needed)
  · intro index declared p listed
    exact answered p listed { name := p.name, ty := index.value } (Or.inr ⟨index, declared, rfl⟩)

theorem slot?_wellFormed (wf : (Ty.object checked).WellFormed) {name : String} {slot : Property Ty}
    (found : slot? checked name = some slot) : slot.ty.WellFormed := by
  rw [slot?] at found
  split at found
  case h_1 own named =>
    cases found
    exact wf.property (mem_names_of_findProperty? named).1
  case h_2 =>
    obtain ⟨index, declared, rfl⟩ := Option.map_eq_some_iff.mp found
    exact wf.indexValue declared

theorem checkedShape?_wellFormed (wf : ctx.aliases.WellFormed) (wfTarget : target.WellFormed)
    (shaped : ctx.aliases.checkedShape? target = some checked) : (Ty.object checked).WellFormed := by
  unfold AliasMap.checkedShape? at shaped
  split at shaped
  case h_1 members =>
    split at shaped
    case h_1 shape merges =>
      cases shaped
      exact AliasMap.merge_wellFormed wf wfTarget merges
    case h_2 => cases shaped
  case h_2 => exact wfTarget.asShape shaped

/-- The parts of a target that a shape is checked in the place of. -/
theorem exists_covering {aliases : AliasMap} (shaped : aliases.checkedShape? target = some checked) :
    ∃ leaves seen, Covering aliases checked leaves seen ∧ Listed leaves seen target ∧
      target.refName? = none := by
  unfold AliasMap.checkedShape? at shaped
  split at shaped
  case h_1 members =>
    split at shaped
    case h_1 shape merges =>
      cases shaped
      obtain ⟨seen, covering, listed⟩ := exists_covering_of_merge merges
      exact ⟨_, seen, covering, listed, rfl⟩
    case h_2 => cases shaped
  case h_2 =>
    exact ⟨[target], [], covering_of_shape shaped, .leaf (.head _),
      AliasMap.refName?_of_asShape? shaped⟩

mutual

/-- The recursion follows the condition. Where the target is a union, a check of the whole says
nothing about a single member, so no findings are needed there. -/
theorem derivable_of_thorough (wf : ctx.aliases.WellFormed) {around : List Query}
    {literal : Shape Ty} {target : Ty} : ctx.Thorough around literal target → target.WellFormed →
      ((ctx.aliases.concrete target).isUnion = false → ctx.Clean literal target) →
      Derivable ctx.aliases around ⟨.object literal, target⟩
  | .known undecided inside, _, _ => derivable_of_known undecided inside
  | .compared unshaped single apart stable, _, clean => by
      rcases compatible_of_clean unshaped single apart (clean single) with isAny | accepted
      · apply derivable_of_rule
        rw [isAny]
        exact .anyTarget _
      · refine (ctx.derivable_of_compatible accepted).congr ?_
        rw [Query.concrete, Query.concrete, stable]
  | .unchecked resolved merges each, _, _ => by
      apply derivable_of_rule
      rw [resolved]
      exact .byShape rfl (.toIntersection rfl each)
  | .member (m := m) resolved listed checked otherwise, wfTarget, _ => by
      have wfUnion := AliasMap.concrete_wellFormed wf wfTarget
      rw [resolved] at wfUnion
      have accepted : ctx.Inside around literal target (.object literal) m := by
        by_cases clean : ctx.Clean literal m
        · exact derivable_of_thorough wf (checked clean) (wfUnion.unionMember listed) fun _ => clean
        · exact otherwise clean
      apply derivable_of_rule
      rw [resolved]
      exact .byShape rfl (.toUnion rfl listed (Or.inr accepted))
  | .shape against met, wfTarget, clean => by
      obtain ⟨leaves, seen, covering, listed, _⟩ := exists_covering against
      exact derivable_of_met wf met
        (checkedShape?_wellFormed wf (AliasMap.concrete_wellFormed wf wfTarget) against)
        (cleanAgainst_of_clean against (clean (isUnion_of_checkedShape? against)))
        covering listed

theorem derivable_of_met (wf : ctx.aliases.WellFormed) {checked : Shape Ty} {around : List Query}
    {literal : Shape Ty} {target : Ty} {leaves : List Ty} {seen : List String} :
    ctx.Met checked around literal target → (Ty.object checked).WellFormed →
      CleanAgainst ctx literal checked → Covering ctx.aliases checked leaves seen →
      Listed leaves seen (ctx.aliases.concrete target) →
      Derivable ctx.aliases around ⟨.object literal, target⟩
  | .known undecided inside, _, _, _, _ => derivable_of_known undecided inside
  | .exempt exempt, _, _, _, _ => derivable_of_rule (justified_of_exempt exempt)
  | .parts resolved each, wfChecked, clean, covering, listed => by
      apply derivable_of_rule
      rw [resolved] at listed ⊢
      refine .byShape rfl (.toIntersection rfl fun m member => ?_)
      have part := (covering.concrete (covering.member listed member)).1
      exact derivable_of_met wf (each m member) wfChecked clean covering part
  | .object shaped skipped nested, wfChecked, clean, covering, listed => by
      obtain ⟨own, same, required⟩ := covering.shaped _ (listed.mem_of_asShape? shaped)
      cases shaped.symm.trans same
      apply derivable_of_rule
      refine justified_of_skippedMet shaped skipped
        (fun name needed => clean.present name (required name needed)) ?_
      intro p member slot asks found
      by_cases fresh : p.ty.isFreshLiteral = true
      · cases value : p.ty with
        | object own =>
            have wfSlot := slot?_wellFormed wfChecked found
            exact derivable_of_thorough wf (nested p member own value fresh slot asks found)
              (Property.declared_wellFormed wfSlot)
              (clean_declared wfSlot (clean.literals p member own value fresh slot found))
        | _ =>
            rw [value] at fresh
            cases fresh
      · exact ctx.derivable_of_compatible (clean.values p member (by simpa using fresh) slot found)

end

end Acceptance

section Exactness

variable {ctx} {literal checked shape : Shape Ty} {target : Ty} {holds : Ty → Ty → Prop}

/-- What is met for a shape is met for everything that the shape asks of a property. -/
theorem asked_of_shapesMet (names : (literal.properties.map (·.name)).Nodup)
    (met : ShapesMet holds literal shape) {p : Property Ty} (member : p ∈ literal.properties)
    {slot : Property Ty} (asks : Asks shape p slot) : holds p.ty slot.declared := by
  rcases asks with ⟨listed, named⟩ | ⟨index, declared, rfl⟩
  · have known := met.slots slot listed
    have found : literal.property? slot.name = some p := by
      rw [named]
      exact findProperty?_of_mem names member
    rw [SlotMet, found] at known
    exact known.2
  · exact met.properties index declared p member

theorem skippedMet_of_shapesMet (names : (literal.properties.map (·.name)).Nodup)
    (met : ShapesMet holds literal shape) : SkippedMet holds literal checked shape where
  required := by
    intro slot listed p found
    have known := met.slots slot listed
    rw [SlotMet, found] at known
    exact known.1
  others := fun p member slot asks _ => asked_of_shapesMet names met member asks
  index := met.index

/-- What can justify a literal: a target that asks for nothing, a shape that is met, a member of a
union, or all members of an intersection. -/
theorem justified_cases (justified : Justified ctx.aliases holds (.object literal) target) :
    target = .any ∨ Exempt literal target ∨
      (∃ shape, target.asShape? = some shape ∧ ShapesMet holds literal shape) ∨
      (∃ members, target = .unionOf members ∧
        ∃ m ∈ members, m.Same (.object literal) ∨ holds (.object literal) m) ∨
      ∃ members, target = .intersectionOf members ∧ ∀ m ∈ members, holds (.object literal) m := by
  cases justified with
  | anyTarget => exact Or.inl rfl
  | equal same => exact Or.inr (Or.inl (Or.inl same))
  | byShape inhabited rule =>
      refine Or.inr ?_
      cases rule with
      | toUnion single listed accepts =>
          exact Or.inr (Or.inr (Or.inl ⟨_, rfl, _, listed, accepts⟩))
      | toIntersection single each => exact Or.inr (Or.inr (Or.inr ⟨_, rfl, each⟩))
      | sameClass valueShape targetShape valueClass targetClass =>
          cases valueShape
          have classes := (sameClass_iff _ _).mpr ⟨_, valueClass, targetClass⟩
          exact Or.inl (Or.inr ⟨_, targetShape, classes⟩)
      | shapes valueShape targetShape met =>
          cases valueShape
          exact Or.inr (Or.inl ⟨_, targetShape, met⟩)

theorem asShape?_of_exempt (exempt : Exempt literal target) : ∃ shape, target.asShape? = some shape := by
  rcases exempt with same | ⟨shape, shaped, _⟩
  · cases target with
    | object own => exact ⟨own, rfl⟩
    | _ => cases same
  · exact ⟨shape, shaped⟩

theorem shapesMet_of_justified (shaped : target.asShape? = some shape)
    (asking : ¬ Exempt literal target)
    (justified : Justified ctx.aliases holds (.object literal) target) :
    ShapesMet holds literal shape := by
  rcases justified_cases justified with rfl | exempt | ⟨own, same, met⟩ | ⟨_, rfl, _⟩ | ⟨_, rfl, _⟩
  · cases shaped
  · exact absurd exempt asking
  · cases same.symm.trans shaped
    exact met
  · cases shaped
  · cases shaped

theorem members_of_justified {members : List Ty}
    (justified : Justified ctx.aliases holds (.object literal) (.intersectionOf members)) :
    ∀ m ∈ members, holds (.object literal) m := by
  rcases justified_cases justified with
    impossible | exempt | ⟨_, impossible, _⟩ | ⟨_, impossible, _⟩ | ⟨_, same, each⟩
  · cases impossible
  · obtain ⟨_, impossible⟩ := asShape?_of_exempt exempt
    cases impossible
  · cases impossible
  · cases impossible
  · cases same
    exact each

theorem member_of_justified {members : List Ty}
    (justified : Justified ctx.aliases holds (.object literal) (.unionOf members)) :
    ∃ m ∈ members, m.Same (.object literal) ∨ holds (.object literal) m := by
  rcases justified_cases justified with
    impossible | exempt | ⟨_, impossible, _⟩ | ⟨_, same, one⟩ | ⟨_, impossible, _⟩
  · cases impossible
  · obtain ⟨_, impossible⟩ := asShape?_of_exempt exempt
    cases impossible
  · cases impossible
  · cases same
    exact one
  · cases impossible

/-- An object goes into nothing that still has to be resolved. -/
theorem concrete_of_justified (justified : Justified ctx.aliases holds (.object literal) target) :
    ctx.aliases.concrete target = target := by
  rcases justified_cases justified with rfl | exempt | ⟨shape, shaped, _⟩ | ⟨_, rfl, _⟩ | ⟨_, rfl, _⟩
  · exact AliasMap.concrete_eq_self rfl fun _ => Ty.noConfusion
  · obtain ⟨shape, shaped⟩ := asShape?_of_exempt exempt
    exact AliasMap.concrete_of_asShape? shaped
  · exact AliasMap.concrete_of_asShape? shaped
  · exact AliasMap.concrete_eq_self rfl fun _ => Ty.noConfusion
  · exact AliasMap.concrete_eq_self rfl fun _ => Ty.noConfusion

/-- What is equal to a literal asks nothing of it. -/
theorem exempt_of_same (wf : (Ty.object literal).WellFormed) (wfTarget : target.WellFormed)
    (same : target.Same (.object literal)) : Exempt literal (ctx.aliases.concrete target) := by
  have equal : (Ty.object literal).Same target := Ty.same_symm wfTarget wf same
  cases target with
  | object own =>
      rw [AliasMap.concrete_of_asShape? rfl]
      exact Or.inl equal
  | _ => cases same

theorem checkedShape?_of_asShape? {aliases : AliasMap} (shaped : target.asShape? = some shape) :
    aliases.checkedShape? target = some shape := by
  cases target with
  | intersectionOf members => cases shaped
  | _ => exact shaped

theorem asks_wellFormed (wf : (Ty.object shape).WellFormed) {p slot : Property Ty}
    (asks : Asks shape p slot) : slot.ty.WellFormed := by
  rcases asks with ⟨listed, _⟩ | ⟨index, declared, rfl⟩
  · exact wf.property listed
  · exact wf.indexValue declared

/-- What a derivation gives: the checks are thorough, and what any shape leaves out is met in the
parts that it is checked in the place of. -/
structure Covered (ctx : Context) (around : List Query) (literal : Shape Ty) (target : Ty) : Prop where
  thorough : ctx.Thorough around literal target
  met : ∀ {checked : Shape Ty} {leaves : List Ty} {seen : List String},
    Covering ctx.aliases checked leaves seen → Listed leaves seen (ctx.aliases.concrete target) →
      (ctx.aliases.concrete target).refName? = none → ctx.Met checked around literal target

section Step

variable {around : List Query}

/-- The premises of a derivation step, with what is known about those for literals. -/
def Premise (ctx : Context) (around : List Query) (literal : Shape Ty) (target value other : Ty) : Prop :=
  ctx.Inside around literal target value other ∧ ∀ own, value = .object own →
    (Ty.object own).WellFormed → other.WellFormed →
      Covered ctx (ctx.question literal target :: around) own other

theorem met_of_justified (wf : (Ty.object literal).WellFormed)
    (wfTarget : (ctx.aliases.concrete target).WellFormed)
    (justified : Justified ctx.aliases (Premise ctx around literal target) (.object literal)
      (ctx.aliases.concrete target)) {leaves : List Ty} {seen : List String}
    (covering : Covering ctx.aliases checked leaves seen)
    (listed : Listed leaves seen (ctx.aliases.concrete target))
    (single : (ctx.aliases.concrete target).refName? = none) :
    ctx.Met checked around literal target := by
  rcases covering.cases listed single with ⟨members, resolved⟩ | ⟨shape, shaped⟩
  · rw [resolved] at justified wfTarget listed
    refine .parts resolved fun m member => ?_
    have premise := members_of_justified justified m member
    have part := covering.concrete (covering.member listed member)
    exact (premise.2 literal rfl wf (wfTarget.intersectionMember member)).met covering part.1 part.2
  · by_cases exempt : Exempt literal (ctx.aliases.concrete target)
    · exact .exempt exempt
    · have met := shapesMet_of_justified shaped exempt justified
      have derived := shapesMet_of_justified shaped exempt (justified.mono fun v t => And.left)
      refine .object shaped (skippedMet_of_shapesMet wf.node derived) ?_
      intro p member own isObject _ slot asks _
      have premise := asked_of_shapesMet wf.node met member asks
      have wfOwn : (Ty.object own).WellFormed := isObject ▸ wf.property member
      have wfSlot := asks_wellFormed (wfTarget.asShape shaped) asks
      exact (premise.2 own isObject wfOwn (Property.declared_wellFormed wfSlot)).thorough

theorem thorough_of_justified (wf : (Ty.object literal).WellFormed)
    (wfTarget : (ctx.aliases.concrete target).WellFormed)
    (justified : Justified ctx.aliases (Premise ctx around literal target) (.object literal)
      (ctx.aliases.concrete target)) : ctx.Thorough around literal target := by
  have stable := concrete_of_justified justified
  cases against : ctx.aliases.checkedShape? (ctx.aliases.concrete target) with
  | some checked =>
      obtain ⟨leaves, seen, covering, listed, single⟩ := exists_covering against
      exact .shape against (met_of_justified wf wfTarget justified covering listed single)
  | none =>
      cases resolved : ctx.aliases.concrete target with
      | unionOf members =>
          rw [resolved] at justified wfTarget
          obtain ⟨m, listed, same | premise⟩ := member_of_justified justified
          · have wfMember := wfTarget.unionMember listed
            have exempt : Exempt literal (ctx.aliases.concrete m) := exempt_of_same wf wfMember same
            obtain ⟨shape, shaped⟩ := asShape?_of_exempt exempt
            refine .member resolved listed (fun _ => ?_) fun _ => ?_
            · exact .shape (checkedShape?_of_asShape? shaped) (.exempt exempt)
            · exact derivable_of_rule (justified_of_exempt exempt)
          · have covered := premise.2 literal rfl wf (wfTarget.unionMember listed)
            exact .member resolved listed (fun _ => covered.thorough) fun _ => premise.1
      | intersectionOf members =>
          rw [resolved] at justified against stable
          cases merges : ctx.aliases.merge (.intersectionOf members) with
          | shape shape =>
              rw [AliasMap.checkedShape?, merges] at against
              cases against
          | any =>
              exact .unchecked resolved merges fun m member =>
                (members_of_justified justified m member).1
          | notMergeable =>
              refine .compared ?_ ?_ ?_ ?_ <;> rw [resolved]
              · exact against
              · rfl
              · exact fun _ => merges
              · exact stable
      | _ =>
          refine .compared against ?_ ?_ stable <;> rw [resolved]
          · rfl
          · exact fun impossible => Bool.noConfusion impossible

end Step

/-- A derivation for a literal gives all that is needed of its checks, by induction along the rules. -/
theorem covered_of_derivable (wf : ctx.aliases.WellFormed) {around : List Query} {q : Query}
    (derived : Derivable ctx.aliases around q) :
    ∀ literal target, q = ⟨.object literal, target⟩ → (Ty.object literal).WellFormed →
      target.WellFormed → Covered ctx around literal target := by
  refine Derivable.justifiedInduction (motive := fun around q => ∀ literal target,
    q = ⟨.object literal, target⟩ → (Ty.object literal).WellFormed → target.WellFormed →
      Covered ctx around literal target) ?cycle ?step derived
  case cycle =>
    rintro around _ undecided known literal target rfl _ _
    rw [concrete_question] at undecided known
    exact ⟨.known undecided known, fun _ _ _ => .known undecided known⟩
  case step =>
    rintro around _ justified literal target rfl wfLiteral wfTarget
    have wfConcrete := AliasMap.concrete_wellFormed wf wfTarget
    rw [concrete_question] at justified
    have premises : Justified ctx.aliases (Premise ctx around literal target) (.object literal)
        (ctx.aliases.concrete target) := by
      refine Justified.mono ?_ justified
      rintro value other ⟨inside, ih⟩
      refine ⟨inside, ?_⟩
      rintro own rfl
      exact ih own other rfl
    exact ⟨thorough_of_justified wfLiteral wfConcrete premises,
      met_of_justified wfLiteral wfConcrete premises⟩

/-- Nothing is left out for a shape without an index signature, unless a property of the literal may
be missing. -/
theorem thorough_of_named {around : List Query} (wf : (ctx.aliases.concrete target).WellFormed)
    (shaped : (ctx.aliases.concrete target).asShape? = some shape) (noIndex : shape.index = none)
    (definite : ∀ p ∈ literal.properties, p.optional = false)
    (nested : ∀ p ∈ literal.properties, ∀ own, p.ty = .object own → p.ty.isFreshLiteral = true →
      ∀ slot ∈ shape.properties, slot.name = p.name →
        ctx.Thorough (ctx.question literal target :: around) own slot.declared) :
    ctx.Thorough around literal target := by
  have bySlot {p slot : Property Ty} (asks : Asks shape p slot) :
      slot ∈ shape.properties ∧ slot.name = p.name := by
    rcases asks with named | ⟨index, declared, _⟩
    · exact named
    · rw [noIndex] at declared
      cases declared
  refine .shape (checkedShape?_of_asShape? shaped) (.object shaped ⟨?_, ?_, ?_⟩ ?_)
  · intro slot _ p found optional
    have present := definite p (mem_names_of_findProperty? found).1
    rw [present] at optional
    cases optional
  · intro p _ slot asks other
    obtain ⟨listed, named⟩ := bySlot asks
    have found : shape.property? p.name = some slot := by
      rw [← named]
      exact findProperty?_of_mem (wf.asShape shaped).node listed
    rw [slot?, found] at other
    exact absurd rfl other
  · intro index own declared
    rw [noIndex] at declared
    cases declared
  · intro p member own isObject fresh slot asks _
    obtain ⟨listed, named⟩ := bySlot asks
    exact nested p member own isObject fresh slot listed named

end Exactness

/-- A literal that is accepted where it is written is accepted through a variable exactly if its
checks, together with the questions that they leave out, cover what compatibility asks. -/
theorem compatible_iff_thorough (ctx : Context) (literal : Shape Ty) (target : Ty)
    (wf : ctx.aliases.WellFormed) (wfLiteral : (Ty.object literal).WellFormed)
    (wfTarget : target.WellFormed)
    (clean : (ctx.validateLiteral (.object literal) target).value = [])
    (finished : (ctx.compatible (Ty.object literal).widenFreshness target).cut = false) :
    (ctx.compatible (Ty.object literal).widenFreshness target).value = true ↔
      ctx.Thorough [] literal target := by
  rw [ctx.compatible_widenFreshness wfLiteral] at finished ⊢
  constructor
  · intro accepted
    have derived : Derivable ctx.aliases [] ⟨.object literal, target⟩ :=
      ctx.derivable_of_compatible accepted
    exact (covered_of_derivable wf derived literal target rfl wfLiteral wfTarget).thorough
  · intro thorough
    have derived := derivable_of_thorough wf thorough wfTarget fun _ => ⟨none, clean⟩
    exact ctx.compatible_of_derivable derived finished

/-- A point may have a label, and a label has a text. -/
def labelled : Context where
  aliases :=
    { definitions :=
        [⟨"Point", [], .object { properties := [⟨"x", .number, false⟩,
            ⟨"label", .unionOf [.ref "Label", .null], true⟩] }⟩,
          ⟨"Label", [], .object { properties := [⟨"text", .string, false⟩] }⟩] }

/-- A label that is written in place. -/
def freshLabel : Shape Ty := { properties := [⟨"text", .literal (.text "a"), false⟩], fresh := true }

/-- A point that is written in place, with its label. -/
def freshPoint : Shape Ty :=
  { properties := [⟨"x", .literal (.number ⟨0x3ff0000000000000⟩), false⟩,
      ⟨"label", .object freshLabel, false⟩]
    fresh := true }

/-- The checks of the point are thorough: its label is checked against a member of what the optional
slot accepts. -/
theorem freshPoint_thorough : labelled.Thorough [] freshPoint (.ref "Point") := by
  have label (around : List Query) : labelled.Thorough around freshLabel (.ref "Label") := by
    refine thorough_of_named (by decide +kernel) rfl rfl (by decide +kernel) ?_
    intro p member own isObject
    cases List.mem_singleton.mp member
    cases isObject
  refine thorough_of_named (by decide +kernel) rfl rfl (by decide +kernel) ?_
  intro p member own isObject _ slot listed named
  simp only [freshPoint, List.mem_cons, List.not_mem_nil, or_false] at member
  rcases member with rfl | rfl
  · cases isObject
  · cases isObject
    simp only [List.mem_cons, List.not_mem_nil, or_false] at listed
    rcases listed with rfl | rfl
    · exact absurd named (by decide)
    · refine .member rfl (.head _) (fun _ => label _) ?_
      intro dirty
      exact absurd ⟨none, by decide +kernel⟩ dirty

theorem freshPoint_compatible :
    (labelled.validateLiteral (.object freshPoint) (.ref "Point")).value = [] ∧
      (labelled.compatible (Ty.object freshPoint).widenFreshness (.ref "Point")).value = true := by
  have clean : (labelled.validateLiteral (.object freshPoint) (.ref "Point")).value = [] := by
    decide +kernel
  refine ⟨clean, ?_⟩
  exact (labelled.compatible_iff_thorough freshPoint (.ref "Point") (by decide +kernel)
    (by decide +kernel) (by decide +kernel) clean (by decide +kernel)).mpr freshPoint_thorough

/-- A property whose slot stands beside an index signature of another type is accepted in a literal
and refused through a variable. -/
theorem beside_index_incompatible :
    let literal : Ty := .object { properties := [⟨"a", .literal (.text "x"), false⟩], fresh := true }
    let target : Ty := .object { properties := [⟨"a", .string, false⟩], index := some ⟨.string, .number⟩ }
    let ctx : Context := {}
    ((ctx.validateLiteral literal target).value = [] ∧
        (ctx.validateLiteral literal target).cut = false) ∧
      (ctx.compatible literal.widenFreshness target).value = false ∧
        (ctx.compatible literal.widenFreshness target).cut = false := by
  decide +kernel

end Context

end StructuralTypes
