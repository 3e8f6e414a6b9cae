import StructuralTypes.Proofs.Reordering.Compatibility

set_option autoImplicit false

namespace StructuralTypes

section Shapes

variable {aliases : AliasMap} {holds : Ty → Ty → Prop} {l : Literal} {ty : Ty}

/-- The types that go where a literal is expected. -/
inductive BelowLiteral (holds : Ty → Ty → Prop) (l : Literal) : Ty → Prop
  | any : BelowLiteral holds l .any
  | never : BelowLiteral holds l .never
  | literal {m : Literal} (equal : m.same l = true) : BelowLiteral holds l (.literal m)
  | union {sources : List Ty} (each : ∀ source ∈ sources, holds source (.literal l)) :
    BelowLiteral holds l (.unionOf sources)
  | intersection {members : List Ty} {member : Ty} (listed : member ∈ members)
    (accepted : holds member (.literal l)) : BelowLiteral holds l (.intersectionOf members)

/-- The types that accept a literal. -/
inductive AboveLiteral (holds : Ty → Ty → Prop) (l : Literal) : Ty → Prop
  | any : AboveLiteral holds l .any
  | literal {m : Literal} (equal : l.same m = true) : AboveLiteral holds l (.literal m)
  | base : AboveLiteral holds l (.primitive l.base)
  | union {members : List Ty} {member : Ty} (listed : member ∈ members)
    (accepts : member.Same (.literal l) ∨ holds (.literal l) member) :
    AboveLiteral holds l (.unionOf members)
  | intersection {members : List Ty} (each : ∀ member ∈ members, holds (.literal l) member) :
    AboveLiteral holds l (.intersectionOf members)

theorem belowLiteral_of_justified (justified : Justified aliases holds ty (.literal l)) :
    BelowLiteral holds l ty := by
  cases justified with
  | anyValue => exact .any
  | neverValue => exact .never
  | equal same =>
      cases Ty.sameNode_of_same same with
      | literal value => exact .literal value
  | byShape inhabited rule =>
      cases rule with
      | ofUnion each => exact .union each
      | ofMember noUnion noIntersection listed accepted => exact .intersection listed accepted
      | literal equal => exact .literal equal
      | ofMerged shaped => cases shaped
      | sameClass valueShape targetShape => cases targetShape
      | shapes valueShape targetShape => cases targetShape

theorem aboveLiteral_of_justified (justified : Justified aliases holds (.literal l) ty) :
    AboveLiteral holds l ty := by
  cases justified with
  | anyTarget => exact .any
  | equal same =>
      obtain ⟨m, rfl, equal⟩ := Ty.exists_literal_of_same same
      exact .literal equal
  | byShape inhabited rule =>
      cases rule with
      | toUnion single listed accepts => exact .union listed accepts
      | toIntersection single each => exact .intersection each
      | literalBase => exact .base
      | literal equal => exact .literal equal
      | sameClass valueShape => cases valueShape
      | shapes valueShape => cases valueShape

theorem BelowLiteral.concrete_eq_self (below : BelowLiteral holds l ty) : aliases.concrete ty = ty := by
  cases below <;> exact AliasMap.concrete_eq_self rfl fun _ => Ty.noConfusion

theorem AboveLiteral.concrete_eq_self (above : AboveLiteral holds l ty) : aliases.concrete ty = ty := by
  cases above <;> exact AliasMap.concrete_eq_self rfl fun _ => Ty.noConfusion

theorem AboveLiteral.isNever (above : AboveLiteral holds l ty) : ty.isNever = false := by
  cases above with
  | base => cases l <;> rfl
  | _ => rfl

end Shapes

section Established

variable {aliases : AliasMap} {value target : Ty} {l : Literal}

theorem established_of_same (wf : aliases.WellFormed) (wfValue : value.WellFormed)
    (equal : value.Same target) : Established aliases value target := by
  apply established_of_derivable
  refine .ofJustified (.equal ?_)
  exact AliasMap.concrete_same wf wfValue (wfValue.of_same equal) equal

/-- A pair of well-formed types that a literal lies between. -/
structure Between (aliases : AliasMap) (value target : Ty) : Prop where
  wellFormed : Query.WellFormed ⟨value, target⟩
  literal : ∃ l : Literal, Established aliases value (.literal l) ∧ Established aliases (.literal l) target

theorem concrete_literal (l : Literal) : aliases.concrete (.literal l) = .literal l :=
  AliasMap.concrete_eq_self rfl fun _ => Ty.noConfusion

theorem concrete_primitive (kind : Primitive) :
    aliases.concrete (.primitive kind) = .primitive kind :=
  AliasMap.concrete_eq_self rfl fun _ => Ty.noConfusion

variable (wf : aliases.WellFormed)

include wf

theorem Established.belowLiteral (wfValue : value.WellFormed)
    (known : Established aliases value (.literal l)) :
    BelowLiteral (fun v t => Query.WellFormed ⟨v, t⟩ ∧ Established aliases v t) l
      (aliases.concrete value) := by
  obtain ⟨v, t, left, right, justified⟩ := known.exists_justified wf ⟨wfValue, .literal l⟩
  rw [concrete_literal] at right
  obtain ⟨m, rfl, same⟩ := Ty.exists_literal_of_same right
  have wfConcrete := AliasMap.concrete_wellFormed wf wfValue
  have wfV := wfConcrete.of_same left
  have turned := Ty.same_symm wfConcrete wfV left
  apply belowLiteral_of_justified
  refine justified.carry wfV (.literal m) turned (Literal.same_symm same) ?_ ?_
  · intro a b a' b' premise sameA sameB
    exact ⟨⟨premise.1.value.of_same sameA, premise.1.target.of_same sameB⟩,
      premise.2.of_same wf premise.1 sameA sameB⟩
  · intro merged shape shaped
    cases shaped

theorem Established.aboveLiteral (wfTarget : target.WellFormed)
    (known : Established aliases (.literal l) target) :
    AboveLiteral (fun v t => Query.WellFormed ⟨v, t⟩ ∧ Established aliases v t) l
      (aliases.concrete target) := by
  obtain ⟨v, t, left, right, justified⟩ := known.exists_justified wf ⟨.literal l, wfTarget⟩
  rw [concrete_literal] at left
  obtain ⟨m, rfl, same⟩ := Ty.exists_literal_of_same left
  have wfConcrete := AliasMap.concrete_wellFormed wf wfTarget
  have wfT := wfConcrete.of_same right
  have turned := Ty.same_symm wfConcrete wfT right
  apply aboveLiteral_of_justified
  refine justified.carry (.literal m) wfT (Literal.same_symm same) turned ?_ ?_
  · intro a b a' b' premise sameA sameB
    exact ⟨⟨premise.1.value.of_same sameA, premise.1.target.of_same sameB⟩,
      premise.2.of_same wf premise.1 sameA sameB⟩
  · intro merged shape shaped merges
    have single : aliases.merge (.literal m) = .notMergeable := rfl
    rw [single] at merges
    cases merges

/-- A value that is not taken apart goes to the parts of a target to which the literal goes; to a
target without parts it has to go by a rule of its own. -/
theorem justified_of_aboveLiteral {x y : Ty} (wfX : x.WellFormed) (wfY : y.WellFormed)
    (single : x.isUnion = false) (below : Established aliases x (.literal l))
    (above : AboveLiteral (fun v t => Query.WellFormed ⟨v, t⟩ ∧ Established aliases v t) l y)
    (direct : (∃ m, y = .literal m ∧ l.same m = true) ∨ y = .primitive l.base →
      ByShape aliases (Between aliases) x y) : Justified aliases (Between aliases) x y := by
  have inhabited := above.isNever
  cases above with
  | any => exact .anyTarget x
  | literal equal => exact .byShape inhabited (direct (Or.inl ⟨_, rfl, equal⟩))
  | base => exact .byShape inhabited (direct (Or.inr rfl))
  | @union members member listed accepts =>
      have wfMember := wfY.unionMember listed
      have accepted : Established aliases (.literal l) member := by
        rcases accepts with equal | premise
        · exact established_of_same wf (.literal l) (Ty.same_symm wfMember (.literal l) equal)
        · exact premise.2
      exact .byShape inhabited (.toUnion single listed (Or.inr ⟨⟨wfX, wfMember⟩, l, below, accepted⟩))
  | @intersection members each =>
      refine .byShape inhabited (.toIntersection single fun member listed => ?_)
      exact ⟨⟨wfX, wfY.intersectionMember listed⟩, l, below, (each member listed).2⟩

theorem Between.justified (between : Between aliases value target) :
    Justified aliases (Between aliases) (aliases.concrete value) (aliases.concrete target) := by
  obtain ⟨wfQuery, l, first, second⟩ := between
  have below := first.belowLiteral wf wfQuery.value
  have above := second.aboveLiteral wf wfQuery.target
  obtain ⟨wfX, wfY⟩ := wfQuery.concrete wf
  -- Both sides are concrete already, so the pair itself is asked again where only one side is taken
  -- apart.
  have ownBelow : Established aliases (aliases.concrete value) (.literal l) := by
    obtain ⟨p, member, left, right⟩ := first
    exact ⟨p, member, below.concrete_eq_self.symm ▸ left, right⟩
  have ownAbove : Established aliases (.literal l) (aliases.concrete target) := by
    obtain ⟨p, member, left, right⟩ := second
    exact ⟨p, member, left, above.concrete_eq_self.symm ▸ right⟩
  simp only [Query.concrete] at wfX wfY
  generalize aliases.concrete value = x at below ownBelow wfX ⊢
  generalize aliases.concrete target = y at above ownAbove wfY ⊢
  cases below with
  | any => exact .anyValue y
  | never => exact .neverValue y
  | @literal m equal =>
      refine justified_of_aboveLiteral wf wfX wfY rfl ownBelow above fun simple => ?_
      rcases simple with ⟨k, rfl, other⟩ | rfl
      · exact .literal (Literal.same_trans equal other)
      · rw [← Literal.base_same equal]
        exact .literalBase m
  | union each =>
      refine .byShape above.isNever (.ofUnion fun source listed => ?_)
      have premise := each source listed
      exact ⟨⟨premise.1.value, wfY⟩, l, premise.2, ownAbove⟩
  | @intersection members member listed accepted =>
      refine justified_of_aboveLiteral wf wfX wfY rfl ownBelow above fun simple => ?_
      have premise : Between aliases member y := ⟨⟨accepted.1.value, wfY⟩, l, accepted.2, ownAbove⟩
      rcases simple with ⟨k, rfl, _⟩ | rfl
      · exact .ofMember rfl rfl listed premise
      · exact .ofMember rfl rfl listed premise

/-- What a literal accepts is established wherever the literal is. -/
theorem Between.established (between : Between aliases value target) :
    Established aliases value target := by
  let pairs : Set Query :=
    { p | ∃ q : Query, p = q.concrete aliases ∧ Between aliases q.value q.target }
  have closed : ClosedWithin aliases [] pairs := by
    constructor
    · intro p member
      obtain ⟨q, same, _⟩ := member
      exact ⟨q, same⟩
    · intro p member
      obtain ⟨q, rfl, known⟩ := member
      refine (known.justified wf).mono fun v t premise => ?_
      exact Or.inl (supported_of_mem ⟨⟨v, t⟩, rfl, premise⟩)
  exact supported_of_mem ⟨pairs, closed, ⟨value, target⟩, rfl, between⟩

end Established

namespace Context

variable (ctx : Context)

/-- A value that a literal accepts is granted wherever the literal is accepted. -/
theorem accepts_of_between (wf : ctx.aliases.WellFormed) {value target : Ty}
    (between : Between ctx.aliases value target) : ctx.Accepts value target := by
  let pairs : Set Query :=
    { p | ∃ q : Query, p = q.concrete ctx.aliases ∧ Between ctx.aliases q.value q.target }
  refine ctx.accepts_of_justified pairs ?_ ⟨⟨value, target⟩, rfl, between⟩
  intro p member
  obtain ⟨q, rfl, known⟩ := member
  refine (known.justified wf).mono fun v t premise => ?_
  exact Or.inl ⟨⟨v, t⟩, rfl, premise⟩

end Context

end StructuralTypes
