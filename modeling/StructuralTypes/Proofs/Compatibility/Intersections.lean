import StructuralTypes.Proofs.Compatibility.Alternatives
import StructuralTypes.Proofs.Compatibility.Constituents
import StructuralTypes.Proofs.NormalForm.Unions

/-!
The rules for the target come first: an intersection is taken apart only after the target is neither
a union nor an intersection any more. By then a member that is a union itself may have lost its way,
because it needs several members of the target, and the intersection has to choose one of them.
-/

set_option autoImplicit false

namespace StructuralTypes

section Parts

variable {aliases : AliasMap} {test : Ty → Prop} {ty m w : Ty} {members : List Ty}

theorem concrete_intersectionOf (members : List Ty) :
    aliases.concrete (.intersectionOf members) = .intersectionOf members :=
  AliasMap.concrete_eq_self rfl fun _ => Ty.noConfusion

theorem Ty.exists_intersectionOf {ty : Ty} (several : ty.isIntersection = true) :
    ∃ members, ty = .intersectionOf members := by
  cases ty with
  | intersectionOf members => exact ⟨members, rfl⟩
  | _ => cases several

/-- Everything that a type consists of passes a test. -/
def ConsistsOf (aliases : AliasMap) (test : Ty → Prop) (ty : Ty) : Prop :=
  ∀ node, Constituent aliases ty node → test node

/-- What a type consists of is concrete once it has been made so. Chains of references that are too
long, and keys that have to be evaluated twice, are the exceptions. -/
def Grounded (aliases : AliasMap) (ty : Ty) : Prop :=
  ConsistsOf aliases (fun node => aliases.concrete node = node) ty

/-- A type does not consist of types of a sort. -/
abbrev Without (aliases : AliasMap) (sort : Ty → Bool) (ty : Ty) : Prop :=
  ConsistsOf aliases (fun node => sort node = false) ty

theorem ConsistsOf.whole (known : ConsistsOf aliases test ty) : test (aliases.concrete ty) :=
  known _ .whole

theorem ConsistsOf.member (known : ConsistsOf aliases test ty)
    (listed : m ∈ (aliases.concrete ty).joined) : ConsistsOf aliases test m := by
  intro node inside
  apply known
  induction inside with
  | whole => exact .member .whole listed
  | member _ further ih => exact .member ih further

/-- The types that an intersection comes to: itself, and the members of the intersections among
them. -/
inductive Ingredient (aliases : AliasMap) : Ty → Ty → Prop
  | self (ty : Ty) : Ingredient aliases ty ty
  | member {ty m w : Ty} {members : List Ty} (meets : aliases.concrete ty = .intersectionOf members)
    (listed : m ∈ members) (inside : Ingredient aliases m w) : Ingredient aliases ty w

theorem Ingredient.trans {v : Ty} (first : Ingredient aliases ty w)
    (second : Ingredient aliases w v) : Ingredient aliases ty v := by
  induction first with
  | self => exact second
  | member meets listed _ ih => exact .member meets listed (ih second)

theorem ConsistsOf.ingredient (known : ConsistsOf aliases test ty)
    (inside : Ingredient aliases ty w) : ConsistsOf aliases test w := by
  induction inside with
  | self => exact known
  | member meets listed _ ih => exact ih (known.member (by rw [meets]; exact listed))

theorem Ingredient.wellFormed (wf : aliases.WellFormed) (wfTy : ty.WellFormed)
    (inside : Ingredient aliases ty w) : w.WellFormed := by
  induction inside with
  | self => exact wfTy
  | member meets listed _ ih =>
      have wfConcrete := AliasMap.concrete_wellFormed wf wfTy
      rw [meets] at wfConcrete
      exact ih (wfConcrete.intersectionMember listed)

end Parts

section Coinduction

variable {aliases : AliasMap} {value target : Ty}

/-- Whether a pair is established depends on the concrete types only. -/
theorem Established.congr {value' target' : Ty}
    (sameValue : aliases.concrete value' = aliases.concrete value)
    (sameTarget : aliases.concrete target' = aliases.concrete target)
    (known : Established aliases value target) : Established aliases value' target' := by
  obtain ⟨p, member, left, right⟩ := known
  exact ⟨p, member, sameValue ▸ left, sameTarget ▸ right⟩

/-- A pair reads as one of the given pairs. -/
def Reads (aliases : AliasMap) (holds : Ty → Ty → Prop) (value target : Ty) : Prop :=
  ∃ v t, aliases.concrete value = aliases.concrete v ∧
    aliases.concrete target = aliases.concrete t ∧ holds v t

/-- Pairs that the rules justify from each other and from what is established are established. -/
theorem established_of_justified {holds : Ty → Ty → Prop}
    (step : ∀ v t, holds v t → Justified aliases
      (Reads aliases fun a b => holds a b ∨ Established aliases a b)
      (aliases.concrete v) (aliases.concrete t))
    (known : holds value target) : Established aliases value target := by
  let pairs : Set Query := { p | (∃ v t, holds v t ∧ p = Query.concrete ⟨v, t⟩ aliases) ∨
    p ∈ largestWithin aliases [] }
  have closed := closed_largestWithin aliases []
  have closedPairs : ClosedWithin aliases [] pairs := by
    constructor
    · rintro p (⟨v, t, _, rfl⟩ | member)
      · exact ⟨⟨v, t⟩, rfl⟩
      · exact closed.concrete p member
    · rintro p (⟨v, t, related, rfl⟩ | member)
      · refine (step v t related).mono ?_
        rintro a b ⟨x, y, left, right, found | ⟨q, inside, sameLeft, sameRight⟩⟩
        · exact Or.inl ⟨_, Or.inl ⟨x, y, found, rfl⟩, left ▸ Ty.same_self _, right ▸ Ty.same_self _⟩
        · exact Or.inl ⟨q, Or.inr inside, left ▸ sameLeft, right ▸ sameRight⟩
      · refine (closed.justified p member).mono fun a b => Or.imp_left ?_
        rintro ⟨q, inside, equal⟩
        exact ⟨q, Or.inr inside, equal⟩
  exact supported_of_mem ⟨pairs, closedPairs, Or.inl ⟨value, target, known, rfl⟩⟩

/-- The rules that need no premise. -/
theorem established_of_settled
    (justified : Justified aliases (fun _ _ => False) (aliases.concrete value) (aliases.concrete target)) :
    Established aliases value target :=
  established_of_derivable (.ofJustified (justified.mono fun _ _ => False.elim))

variable (wf : aliases.WellFormed)

include wf

/-- Only the rule for merged shapes looks at the order of members. Where the target has no shape, what
is established is justified as it is written. -/
theorem Established.justified_of_unshaped (wfQuery : Query.WellFormed ⟨value, target⟩)
    (unshaped : (aliases.concrete target).asShape? = none)
    (known : Established aliases value target) :
    Justified aliases (fun v t => Query.WellFormed ⟨v, t⟩ ∧ Established aliases v t)
      (aliases.concrete value) (aliases.concrete target) := by
  obtain ⟨v, t, left, right, justified⟩ := known.exists_justified wf wfQuery
  have wfPair := wfQuery.concrete wf
  have wfV := wfPair.value.of_same left
  have wfT := wfPair.target.of_same right
  have turnedValue : v.Same (aliases.concrete value) := Ty.same_symm wfPair.value wfV left
  have turnedTarget : t.Same (aliases.concrete target) := Ty.same_symm wfPair.target wfT right
  refine justified.carry wfV wfT turnedValue turnedTarget ?_ ?_
  · intro a b a' b' premise sameA sameB
    exact ⟨⟨premise.1.value.of_same sameA, premise.1.target.of_same sameB⟩,
      premise.2.of_same wf premise.1 sameA sameB⟩
  · intro merged shape shaped
    obtain ⟨shape', shaped', _⟩ := Ty.exists_equal_shape turnedTarget shaped
    rw [unshaped] at shaped'
    cases shaped'

end Coinduction

section Descent

variable {aliases : AliasMap}

/-- A target in which the rules never have to choose, with a value that goes to it. -/
structure Descends (aliases : AliasMap) (value target : Ty) : Prop where
  wellFormed : Query.WellFormed ⟨value, target⟩
  groundedValue : Grounded aliases value
  groundedTarget : Grounded aliases target
  noUnion : Without aliases Ty.isUnion target
  noNever : Without aliases Ty.isNever target
  established : Established aliases value target

/-- The first ingredient on the way down to which the value is not known to go. -/
structure Lost (aliases : AliasMap) (value target : Ty) : Prop where
  exists_member : ∃ (top : Ty) (members : List Ty) (m : Ty), Descends aliases value top ∧
    aliases.concrete top = .intersectionOf members ∧ m ∈ members ∧
    ¬ Established aliases value m ∧ Ingredient aliases m target

variable (wf : aliases.WellFormed) {value top target : Ty}

include wf

theorem Descends.member {members : List Ty} {m : Ty} (known : Descends aliases value top)
    (meets : aliases.concrete top = .intersectionOf members) (listed : m ∈ members)
    (established : Established aliases value m) : Descends aliases value m := by
  have joined : m ∈ (aliases.concrete top).joined := by
    rw [meets]
    exact listed
  have wfMember : m.WellFormed :=
    Ingredient.wellFormed wf known.wellFormed.target (.member meets listed (.self m))
  exact ⟨⟨known.wellFormed.value, wfMember⟩, known.groundedValue,
    known.groundedTarget.member joined, known.noUnion.member joined,
    known.noNever.member joined, established⟩

theorem Descends.established_or_lost (known : Descends aliases value top)
    (inside : Ingredient aliases top target) :
    Established aliases value target ∨ Lost aliases value target := by
  induction inside with
  | self => exact Or.inl known.established
  | @member top m w members meets listed inside ih =>
      by_cases further : Established aliases value m
      · exact ih (known.member wf meets listed further)
      · exact Or.inr ⟨top, members, m, known, meets, listed, further, inside⟩

/-- A value that goes to an intersection, but not to a member of it, is a union or an intersection
itself, and the way down goes on through its own members. -/
theorem Lost.justified (lost : Lost aliases value target) :
    Justified aliases (Reads aliases fun a b => Lost aliases a b ∨ Established aliases a b)
      (aliases.concrete value) (aliases.concrete target) := by
  obtain ⟨top, members, m, known, meets, listed, unknown, inside⟩ := lost
  have below : Ingredient aliases top target := .member meets listed inside
  have unshaped : (aliases.concrete top).asShape? = none := by rw [meets]; rfl
  have own : aliases.concrete (aliases.concrete value) = aliases.concrete value :=
    known.groundedValue.whole
  have ends : aliases.concrete (aliases.concrete target) = aliases.concrete target :=
    (known.groundedTarget.ingredient below).whole
  have single := (known.noUnion.ingredient below).whole
  have inhabited := (known.noNever.ingredient below).whole
  have wfTop := AliasMap.concrete_wellFormed wf known.wellFormed.target
  have wfValue := AliasMap.concrete_wellFormed wf known.wellFormed.value
  have justified := known.established.justified_of_unshaped wf known.wellFormed unshaped
  rw [meets] at justified wfTop
  have part {s n : Ty} (member : s ∈ (aliases.concrete value).joined) (wfS : s.WellFormed)
      (first : Ingredient aliases top n) (rest : Ingredient aliases n target)
      (accepted : Established aliases s n) :
      Reads aliases (fun a b => Lost aliases a b ∨ Established aliases a b) s
        (aliases.concrete target) := by
    have smaller : Descends aliases s n :=
      ⟨⟨wfS, first.wellFormed wf known.wellFormed.target⟩, known.groundedValue.member member,
        known.groundedTarget.ingredient first, known.noUnion.ingredient first,
        known.noNever.ingredient first, accepted⟩
    exact ⟨s, target, rfl, ends, (smaller.established_or_lost wf rest).symm⟩
  have onward {n : Ty} (rest : Ingredient aliases target n) :
      Reads aliases (fun a b => Lost aliases a b ∨ Established aliases a b)
        (aliases.concrete value) n :=
    ⟨value, n, own, rfl, (known.established_or_lost wf (below.trans rest)).symm⟩
  generalize read : aliases.concrete value = x at justified own wfValue part onward ⊢
  cases justified with
  | anyValue => exact .anyValue _
  | neverValue => exact .neverValue _
  | equal same =>
      obtain ⟨parts, rfl, set⟩ :=
        Ty.exists_intersectionOf_of_same wfTop (Ty.same_symm wfValue wfTop same)
      by_cases several : (aliases.concrete target).isIntersection = true
      · obtain ⟨further, split⟩ := Ty.exists_intersectionOf several
        rw [split]
        refine .byShape rfl (.toIntersection rfl fun n member => ?_)
        exact onward (.member split member (.self n))
      · obtain ⟨k, member, equal⟩ := set.forth m listed
        have wfK := wfValue.intersectionMember member
        have turned := Ty.same_symm (wfTop.intersectionMember listed) wfK equal
        refine .byShape inhabited (.ofMember single (by simpa using several) member ?_)
        exact part member wfK (.member meets listed (.self m)) inside
          (established_of_same wf wfK turned)
  | byShape _ rule =>
      cases rule with
      | ofUnion each =>
          refine .byShape inhabited (.ofUnion fun s member => ?_)
          refine part member (each s member).1.value (.self top) below ((each s member).2.congr rfl ?_)
          rw [concrete_intersectionOf, meets]
      | toIntersection _ each =>
          refine absurd ((each m listed).2.congr ?_ rfl) unknown
          rw [own, read]
      | ofMember _ noIntersection => cases noIntersection
      | ofMerged shaped => cases shaped
      | sameClass _ shaped => cases shaped
      | shapes _ shaped => cases shaped

/-- A value that goes to an intersection without a choice goes to its members. -/
theorem Descends.established_member {members : List Ty} {m : Ty}
    (known : Descends aliases value top) (meets : aliases.concrete top = .intersectionOf members)
    (listed : m ∈ members) : Established aliases value m := by
  rcases known.established_or_lost wf (.member meets listed (.self m)) with found | lost
  · exact found
  · exact established_of_justified (fun v t => Lost.justified wf) lost

end Descent

section Members

variable {aliases : AliasMap} {value target m : Ty} {members : List Ty}

/-- Not both sides leave the rules a choice, and not both of them make the rules stop short. -/
def Decided (aliases : AliasMap) (value target : Ty) : Prop :=
  (Without aliases Ty.isUnion value ∧
    (Without aliases Ty.isAny value ∧ Without aliases Ty.isNever value ∨
      Without aliases Ty.isNever target)) ∨
  (Without aliases Ty.isUnion target ∧ Without aliases Ty.isNever target)

theorem Decided.targetMember (decided : Decided aliases value target)
    (listed : m ∈ (aliases.concrete target).joined) : Decided aliases value m := by
  rcases decided with ⟨single, proper | inhabited⟩ | ⟨single, inhabited⟩
  · exact Or.inl ⟨single, Or.inl proper⟩
  · exact Or.inl ⟨single, Or.inr (inhabited.member listed)⟩
  · exact Or.inr ⟨single.member listed, inhabited.member listed⟩

theorem Decided.valueMember (decided : Decided aliases value target)
    (listed : m ∈ (aliases.concrete value).joined) : Decided aliases m target := by
  rcases decided with ⟨single, ⟨proper, inhabited⟩ | inhabited⟩ | targetSide
  · exact Or.inl ⟨single.member listed, Or.inl ⟨proper.member listed, inhabited.member listed⟩⟩
  · exact Or.inl ⟨single.member listed, Or.inr inhabited⟩
  · exact Or.inr targetSide

/-- A value goes to a target, and the rules get there for everything that has the value in it. -/
structure Reaches (aliases : AliasMap) (value target : Ty) : Prop where
  wellFormed : Query.WellFormed ⟨value, target⟩
  groundedValue : Grounded aliases value
  groundedTarget : Grounded aliases target
  decided : Decided aliases value target
  established : Established aliases value target

namespace Reaches

theorem toMember (known : Reaches aliases value target)
    (listed : m ∈ (aliases.concrete target).joined) (wfM : m.WellFormed)
    (established : Established aliases value m) : Reaches aliases value m :=
  ⟨⟨known.wellFormed.value, wfM⟩, known.groundedValue, known.groundedTarget.member listed,
    known.decided.targetMember listed, established⟩

variable (wf : aliases.WellFormed) (known : Reaches aliases value target)

include wf known

/-- Where `any` or `never` goes, the target is not `never`. -/
theorem not_never : (aliases.concrete target).isNever = false := by
  rw [Bool.eq_false_iff]
  intro isNever
  have never := (isNever_iff _).mp isNever
  have justified := known.established.justified_of_unshaped wf known.wellFormed (by rw [never]; rfl)
  rw [never] at justified
  have special : (aliases.concrete value).isAny = true ∨ (aliases.concrete value).isNever = true := by
    generalize aliases.concrete value = x at justified
    cases justified with
    | anyValue => exact Or.inl rfl
    | neverValue => exact Or.inr rfl
    | equal same => exact Or.inr (by rw [Ty.isNever_same same]; rfl)
    | byShape inhabited => cases inhabited
  rcases known.decided with ⟨_, ⟨proper, inhabited⟩ | inhabited⟩ | ⟨_, inhabited⟩
  · rw [proper.whole, inhabited.whole] at special
    rcases special with impossible | impossible <;> cases impossible
  · rw [inhabited.whole] at isNever
    cases isNever
  · rw [inhabited.whole] at isNever
    cases isNever

/-- A target that is a union has a member to go on with. -/
theorem exists_unionMember (union : aliases.concrete target = .unionOf members) :
    ∃ m ∈ members, Reaches aliases value m := by
  have wfTarget := AliasMap.concrete_wellFormed wf known.wellFormed.target
  have own : aliases.concrete (aliases.concrete value) = aliases.concrete value :=
    known.groundedValue.whole
  have single : (aliases.concrete value).isUnion = false := by
    rcases known.decided with ⟨single, _⟩ | ⟨noUnion, _⟩
    · exact single.whole
    · have impossible := noUnion.whole
      rw [union] at impossible
      cases impossible
  have justified := known.established.justified_of_unshaped wf known.wellFormed (by rw [union]; rfl)
  rw [union] at justified wfTarget
  have go {m : Ty} (listed : m ∈ members) (established : Established aliases value m) :
      ∃ m ∈ members, Reaches aliases value m := by
    refine ⟨m, listed, known.toMember ?_ (wfTarget.unionMember listed) established⟩
    rw [union]
    exact listed
  obtain ⟨first, listed⟩ : ∃ m, m ∈ members := wfTarget.exists_unionMember
  generalize read : aliases.concrete value = x at justified own single
  cases justified with
  | anyValue => exact go listed (established_of_settled (read ▸ .anyValue _))
  | neverValue => exact go listed (established_of_settled (read ▸ .neverValue _))
  | equal same =>
      rw [Ty.isUnion_same same] at single
      cases single
  | byShape _ rule =>
      cases rule with
      | ofUnion => cases single
      | @toUnion m _ _ _ listed accepts =>
          refine go listed (Established.congr (by rw [own, read]) rfl ?_)
          rcases accepts with same | premise
          · have wfM := wfTarget.unionMember listed
            have wfX := wfM.of_same same
            exact established_of_same wf wfX (Ty.same_symm wfM wfX same)
          · exact premise.2
      | ofMember noUnion => cases noUnion
      | ofMerged shaped => cases shaped
      | sameClass _ shaped => cases shaped
      | shapes _ shaped => cases shaped

/-- For every member of a target that is an intersection, an ingredient of the value goes on. -/
theorem exists_ingredient (meets : aliases.concrete target = .intersectionOf members)
    (listed : m ∈ members) : ∃ c, Ingredient aliases value c ∧ Reaches aliases c m := by
  have wfTarget := AliasMap.concrete_wellFormed wf known.wellFormed.target
  have wfValue := AliasMap.concrete_wellFormed wf known.wellFormed.value
  have own : aliases.concrete (aliases.concrete value) = aliases.concrete value :=
    known.groundedValue.whole
  have joined : m ∈ (aliases.concrete target).joined := by
    rw [meets]
    exact listed
  have wfM : m.WellFormed := by
    rw [meets] at wfTarget
    exact wfTarget.intersectionMember listed
  have itself (established : Established aliases value m) :
      ∃ c, Ingredient aliases value c ∧ Reaches aliases c m :=
    ⟨value, .self value, known.toMember joined wfM established⟩
  by_cases plain : Without aliases Ty.isUnion target ∧ Without aliases Ty.isNever target
  · have descends : Descends aliases value target :=
      ⟨known.wellFormed, known.groundedValue, known.groundedTarget, plain.1, plain.2,
        known.established⟩
    exact itself (descends.established_member wf meets listed)
  · have single : (aliases.concrete value).isUnion = false :=
      (known.decided.resolve_right plain).1.whole
    have justified := known.established.justified_of_unshaped wf known.wellFormed (by rw [meets]; rfl)
    rw [meets] at justified wfTarget
    generalize read : aliases.concrete value = x at justified own single wfValue
    cases justified with
    | anyValue => exact itself (established_of_settled (read ▸ .anyValue _))
    | neverValue => exact itself (established_of_settled (read ▸ .neverValue _))
    | equal same =>
        obtain ⟨parts, rfl, set⟩ :=
          Ty.exists_intersectionOf_of_same wfTarget (Ty.same_symm wfValue wfTarget same)
        obtain ⟨k, member, equal⟩ := set.forth m listed
        have wfK := wfValue.intersectionMember member
        have inside : k ∈ (aliases.concrete value).joined := by
          rw [read]
          exact member
        refine ⟨k, .member read member (.self k), ⟨wfK, wfM⟩, known.groundedValue.member inside,
          known.groundedTarget.member joined,
          (known.decided.targetMember joined).valueMember inside, ?_⟩
        exact established_of_same wf wfK (Ty.same_symm wfM wfK equal)
    | byShape _ rule =>
        cases rule with
        | ofUnion => cases single
        | toIntersection _ each =>
            exact itself ((each m listed).2.congr (by rw [own, read]) rfl)
        | ofMember _ noIntersection => cases noIntersection
        | ofMerged shaped => cases shaped
        | sameClass _ shaped => cases shaped
        | shapes _ shaped => cases shaped

end Reaches

/-- An intersection with an ingredient that goes to the target. -/
structure Holding (aliases : AliasMap) (value target : Ty) : Prop where
  exists_part : ∃ (members : List Ty) (m c : Ty), aliases.concrete value = .intersectionOf members ∧
    m ∈ members ∧ Ingredient aliases m c ∧ Reaches aliases c target

theorem Holding.justified (wf : aliases.WellFormed) (holding : Holding aliases value target) :
    Justified aliases (Reads aliases fun a b => Holding aliases a b ∨ Established aliases a b)
      (aliases.concrete value) (aliases.concrete target) := by
  obtain ⟨members, m, c, meets, listed, inside, known⟩ := holding
  have ends : aliases.concrete (aliases.concrete target) = aliases.concrete target :=
    known.groundedTarget.whole
  have inhabited := known.not_never wf
  have onward {n d : Ty} (deeper : Ingredient aliases m d) (reaches : Reaches aliases d n) :
      Reads aliases (fun a b => Holding aliases a b ∨ Established aliases a b)
        (.intersectionOf members) n := by
    refine ⟨value, n, ?_, rfl, Or.inl ⟨members, m, d, meets, listed, deeper, reaches⟩⟩
    rw [concrete_intersectionOf, meets]
  rw [meets]
  by_cases several : (aliases.concrete target).isUnion = true
  · cases union : aliases.concrete target with
    | unionOf targets =>
        obtain ⟨n, member, reaches⟩ := known.exists_unionMember wf union
        exact .byShape rfl (.toUnion rfl member (Or.inr (onward inside reaches)))
    | _ =>
        rw [union] at several
        cases several
  · by_cases split : (aliases.concrete target).isIntersection = true
    · obtain ⟨targets, parts⟩ := Ty.exists_intersectionOf split
      rw [parts]
      refine .byShape rfl (.toIntersection rfl fun n member => ?_)
      obtain ⟨d, deeper, reaches⟩ := known.exists_ingredient wf parts member
      exact onward (inside.trans deeper) reaches
    · -- Only now is the intersection itself taken apart, into the member that holds the ingredient.
      refine .byShape inhabited (.ofMember (by simpa using several) (by simpa using split) listed ?_)
      refine ⟨m, target, rfl, ends, ?_⟩
      cases inside with
      | self => exact Or.inr known.established
      | @member _ k _ parts meetsM memberK deeper =>
          exact Or.inl ⟨parts, k, c, meetsM, memberK, deeper, known⟩

end Members

section Tests

variable {aliases : AliasMap} {ty : Ty}

/-- Without `keyof` and endless chains, every type is grounded. -/
theorem grounded_of_keyofFree (plain : aliases.Plain) (free : ty.KeyofFree) :
    Grounded aliases ty := by
  have inside : ∀ node, Constituent aliases ty node →
      node.KeyofFree ∧ aliases.concrete node = node := by
    intro node constituent
    induction constituent with
    | whole => exact plain.concrete_keyofFree free
    | @member node m _ listed ih =>
        refine plain.concrete_keyofFree (ih.1.child ?_)
        cases node with
        | unionOf | intersectionOf => exact listed
        | _ => cases listed
  exact fun node constituent => (inside node constituent).2

/-- The test of what a type consists of within a number of levels. -/
def consistsWithin (aliases : AliasMap) (test : Ty → Bool) : Nat → Ty → Bool
  | 0, _ => false
  | levels + 1, node =>
    test node && node.joined.all fun m => consistsWithin aliases test levels (aliases.concrete m)

theorem consistsOf_of_within {test : Ty → Bool} (levels : Nat)
    (passed : consistsWithin aliases test levels (aliases.concrete ty) = true) :
    ConsistsOf aliases (fun node => test node = true) ty := by
  have reached : ∀ node, Constituent aliases ty node →
      ∃ left, consistsWithin aliases test left node = true := by
    intro node constituent
    induction constituent with
    | whole => exact ⟨levels, passed⟩
    | @member node m _ listed ih =>
        obtain ⟨left, tested⟩ := ih
        cases left with
        | zero => cases tested
        | succ left =>
            rw [consistsWithin, Bool.and_eq_true, List.all_eq_true] at tested
            exact ⟨left, tested.2 m listed⟩
  intro node constituent
  obtain ⟨left, tested⟩ := reached node constituent
  cases left with
  | zero => cases tested
  | succ left =>
      rw [consistsWithin, Bool.and_eq_true] at tested
      exact tested.1

end Tests

/-- The rules take an intersection apart at once. -/
structure TakesApart (aliases : AliasMap) (target : Ty) : Prop where
  noUnion : (aliases.concrete target).isUnion = false
  noIntersection : (aliases.concrete target).isIntersection = false
  inhabited : (aliases.concrete target).isNever = false
  ends : aliases.concrete (aliases.concrete target) = aliases.concrete target

namespace Context

variable (ctx : Context)

/-- An intersection goes where one of its members goes, if the target is neither a union nor an
intersection, nor `never`. For other targets it does so if the two sides do not both leave a choice
and no comparison hangs on which of several index signatures comes first. -/
theorem intersection_of_member (wf : ctx.aliases.WellFormed) {members : List Ty} {m target : Ty}
    (wfValue : (Ty.intersectionOf members).WellFormed) (listed : m ∈ members)
    (wfTarget : target.WellFormed) (accepted : (ctx.compatible m target).value = true)
    (finished : (ctx.compatible (.intersectionOf members) target).cut = false)
    (fits : TakesApart ctx.aliases target ∨
      KeysClear ctx.aliases ⟨.intersectionOf members, target⟩ ∧ Grounded ctx.aliases m ∧
        Grounded ctx.aliases target ∧ Decided ctx.aliases m target) :
    (ctx.compatible (.intersectionOf members) target).value = true := by
  have own : ctx.aliases.concrete (.intersectionOf members) = .intersectionOf members :=
    concrete_intersectionOf members
  rcases fits with ⟨noUnion, noIntersection, inhabited, ends⟩ | ⟨clear, groundedM, groundedT, decided⟩
  · refine ctx.compatible_of_derivable (.ofJustified ?_) finished
    rw [Query.concrete, own]
    refine .byShape inhabited (.ofMember noUnion noIntersection listed ?_)
    refine (ctx.derivable_of_compatible accepted).congr ?_
    rw [Query.concrete, Query.concrete, ends]
  · have wfM : m.WellFormed := wfValue.intersectionMember listed
    have reaches : Reaches ctx.aliases m target :=
      ⟨⟨wfM, wfTarget⟩, groundedM, groundedT, decided, established_of_compatible accepted⟩
    have known : Established ctx.aliases (.intersectionOf members) target :=
      established_of_justified (fun v t => Holding.justified wf)
        ⟨members, m, m, own, listed, .self m, reaches⟩
    exact ctx.compatible_of_accepts
      (ctx.accepts_of_established wf ⟨wfValue, wfTarget⟩ clear known) finished

/-- A slot that every object here has to have. -/
def sized : Ty := .object { properties := [⟨"size", .number, false⟩] }

/-- A name for an intersection. -/
def points : Context where
  aliases :=
    { definitions := [⟨"Point", [], .intersectionOf
        [.object { properties := [⟨"x", .number, false⟩] },
          .object { properties := [⟨"y", .number, false⟩] }]⟩] }

theorem sized_point_accepted :
    (points.compatible (.ref "Point") (.unionOf [.ref "Point", .null])).value = true ∧
      (points.compatible (.intersectionOf [.ref "Point", sized])
        (.unionOf [.ref "Point", .null])).value = true := by
  have accepted : (points.compatible (.ref "Point") (.unionOf [.ref "Point", .null])).value = true := by
    decide +kernel
  have plain : points.aliases.Plain := by
    refine ⟨by decide +kernel, fun d listed => ?_⟩
    cases List.mem_singleton.mp listed
    exact ⟨_, rfl⟩
  have tested : ConsistsOf points.aliases
      (fun node => (!node.isUnion && !node.isAny && !node.isNever) = true) (.ref "Point") :=
    consistsOf_of_within 3 (by decide +kernel)
  have decided : Decided points.aliases (.ref "Point") (.unionOf [.ref "Point", .null]) := by
    refine Or.inl ⟨fun node inside => ?_, Or.inl ⟨fun node inside => ?_, fun node inside => ?_⟩⟩ <;>
      · have := tested node inside
        grind
  refine ⟨accepted, points.intersection_of_member (by decide +kernel) (by decide +kernel)
    (.head _) (by decide +kernel) accepted (by decide +kernel) (Or.inr ⟨?_, ?_, ?_, decided⟩)⟩
  · exact keysClear_of_within points.aliases 6 (by decide +kernel)
  · exact grounded_of_keyofFree plain (by decide +kernel)
  · exact grounded_of_keyofFree plain (by decide +kernel)

/-- A member is accepted, and with a second member it is refused although no limit is hit. -/
def Loses (m other target : Ty) : Prop :=
  ctx.aliases.WellFormed ∧ (Ty.intersectionOf [m, other]).WellFormed ∧ target.WellFormed ∧
    (ctx.compatible m target).value = true ∧
    (ctx.compatible (.intersectionOf [m, other]) target).cut = false ∧
    (ctx.compatible (.intersectionOf [m, other]) target).value = false

instance (m other target : Ty) : Decidable (ctx.Loses m other target) :=
  inferInstanceAs (Decidable (_ ∧ _ ∧ _ ∧ _ ∧ _ ∧ _))

/-- A name for `any`. -/
def anything : Context where
  aliases := { definitions := [⟨"Anything", [], .any⟩] }

/-- A chain of two references, of which one is followed at a time. -/
def shallow : Context where
  aliases := { definitions := [⟨"Near", [], .ref "Far"⟩, ⟨"Far", [], .string⟩], maxDepth := 1 }

/-- An object with a slot whose type has two index signatures. -/
def keyedNode (slot : Ty) : Ty :=
  .object { properties := [⟨"next", .ref "Node", false⟩, ⟨"slot", slot, false⟩] }

/-- Objects that refer to themselves, and the same for an intersection as their target. -/
def keyedNodes : Context where
  aliases :=
    { definitions :=
        [⟨"Node", [], keyedNode (.intersectionOf [named .number, counts])⟩,
          ⟨"Target", [], .intersectionOf
            [.object { properties := [⟨"next", .ref "Target", false⟩] },
              .object { properties := [⟨"slot", named .string, false⟩] }]⟩] }

/-- What the rules lose: a union that needs more than one member of a target, because a member of the
target is chosen first; `any` where `never` is expected; a chain that is followed further the second
time; and a slot whose key hangs on the order of members, where a first comparison takes the types for
equal and the comparison of the intersection has to look. -/
theorem members_lost :
    ({} : Context).Loses (.unionOf [.string, .number]) sized (.unionOf [.string, .number]) ∧
      anything.Loses (.ref "Anything") sized .never ∧
      shallow.Loses (.ref "Near") sized (.ref "Near") ∧
      keyedNodes.Loses (keyedNode (.intersectionOf [counts, named .number])) sized (.ref "Target") := by
  decide +kernel

end Context

end StructuralTypes
