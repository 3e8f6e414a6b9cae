import StructuralTypes.Proofs.Narrowing.Members
import StructuralTypes.Proofs.Narrowing.Values
import StructuralTypes.Proofs.Ty.Composition

set_option autoImplicit false

namespace StructuralTypes

namespace Context

variable (ctx : Context) {value target : Ty}

theorem accepts_of_settled
    (settled : (Query.concrete ⟨value, target⟩ ctx.aliases).settled? = some true) :
    ctx.Accepts value target := ctx.accepts_of_derivable (.settled settled)

theorem accepts_anyTarget (isAny : (ctx.aliases.concrete target).isAny = true) :
    ctx.Accepts value target := by
  apply ctx.accepts_of_settled
  rw [Query.concrete, Query.settled?, isAny]
  rfl

theorem accepts_any (target : Ty) : ctx.Accepts .any target := by
  apply ctx.accepts_of_settled
  rw [Query.concrete, concrete_primitive, Query.settled?, Bool.or_comm]
  rfl

section Sources

variable {ctx} {source m : Ty} (wf : ctx.aliases.WellFormed) (wfSource : source.WellFormed)
  (firm : Firm ctx.aliases source)

include wf wfSource firm

/-- The members of a source are offered by it. -/
theorem offer_member (listed : m ∈ (ctx.aliases.concrete source).unionMembers) :
    Offer ctx.aliases m source := by
  have wfConcrete := AliasMap.concrete_wellFormed wf wfSource
  have wfM := wfConcrete.unionMembers listed
  by_cases several : (ctx.aliases.concrete source).isUnion = true
  · obtain ⟨members, union⟩ := Ty.exists_unionOf several
    rw [union] at listed
    exact ⟨wfM, wfSource, firm.member union listed, .member union listed (.refl m)⟩
  · rw [Bool.not_eq_true] at several
    rw [Ty.unionMembers_eq_self several] at listed
    cases List.mem_singleton.mp listed
    refine ⟨wfM, wfSource, firm_of_concrete firm.concrete several, .same ?_⟩
    rw [firm.concrete]
    exact Ty.same_self _

theorem accepts_keywordLiteral {l : Literal}
    (listed : .primitive l.base ∈ (ctx.aliases.concrete source).unionMembers) :
    ctx.Accepts (.literal l) source := by
  have keyword := offer_member wf wfSource firm listed
  have offered : Offered ctx.aliases (.literal l) source :=
    .trans wf (.literal l) wfSource keyword.wfValue (.keyword l) keyword.offered
  exact ctx.accepts_of_offer wf ⟨.literal l, wfSource, firm_literal l, offered⟩

omit wf wfSource in
/-- A literal goes where a member of the source accepts it. -/
theorem accepts_memberLiteral {l : Literal}
    (listed : m ∈ (ctx.aliases.concrete source).unionMembers) (granted : ctx.Accepts (.literal l) m) :
    ctx.Accepts (.literal l) source := by
  by_cases several : (ctx.aliases.concrete source).isUnion = true
  · obtain ⟨members, union⟩ := Ty.exists_unionOf several
    refine ctx.accepts_of_justified {⟨.literal l, ctx.aliases.concrete source⟩} ?_ ?_
    · rintro p rfl
      rw [union] at listed ⊢
      exact .byShape rfl (.toUnion rfl listed (Or.inr (Or.inr granted)))
    · rw [Query.concrete, concrete_literal]
      rfl
  · rw [Bool.not_eq_true] at several
    rw [Ty.unionMembers_eq_self several] at listed
    cases List.mem_singleton.mp listed
    refine granted.congr ?_
    rw [Query.concrete, Query.concrete, firm.concrete]

end Sources

/-- A part that a condition may leave of a source. -/
structure Leaves (ctx : Context) (source part : Ty) : Prop where
  wellFormed : part.WellFormed
  single : part.isUnion = false
  accepts : ctx.Accepts part source

section Parts

variable {ctx} {source m : Ty} (wf : ctx.aliases.WellFormed) (wfSource : source.WellFormed)
  (firm : Firm ctx.aliases source)

include wf wfSource firm

theorem leaves_member (listed : m ∈ (ctx.aliases.concrete source).unionMembers) :
    ctx.Leaves source m where
  wellFormed := (AliasMap.concrete_wellFormed wf wfSource).unionMembers listed
  single := (AliasMap.concrete_wellFormed wf wfSource).unionMembers_flat listed
  accepts := ctx.accepts_of_offer wf (offer_member wf wfSource firm listed)

omit wf wfSource in
/-- A union of parts goes where the source is expected. There are never more parts than members, so
nothing but `never` is left of `never`. -/
theorem accepts_union {tys : List Ty} (each : ∀ ty ∈ tys, ctx.Leaves source ty)
    (few : tys.length ≤ (ctx.aliases.concrete source).unionMembers.length) :
    ctx.Accepts (.union tys) source := by
  have wfTys : ∀ ty ∈ tys, ty.WellFormed := fun ty listed => (each ty listed).wellFormed
  by_cases several : (ctx.aliases.concrete source).isUnion = true
  · obtain ⟨members, union⟩ := Ty.exists_unionOf several
    refine ctx.accepts_of_members (by rw [union]; rfl) firm.concrete fun m listed => ?_
    by_cases isAny : (Ty.union tys).isAny = true
    · rw [(isAny_iff _).mp isAny] at listed
      cases List.mem_singleton.mp listed
      exact ctx.accepts_any source
    · rw [Bool.not_eq_true] at isAny
      rw [Ty.unionMembers_union wfTys isAny] at listed
      split at listed
      · cases List.mem_singleton.mp listed
        exact ctx.accepts_never source
      · have inside := Ty.mem_of_mem_unionParts listed
        rw [Ty.flatMap_unionMembers fun ty here => (each ty here).single] at inside
        exact (each m inside).accepts
  · rw [Bool.not_eq_true] at several
    rw [Ty.unionMembers_eq_self several] at few
    match tys with
    | [] => exact ctx.accepts_never source
    | [only] =>
        rw [Ty.union_singleton (wfTys only (.head _))]
        exact (each only (.head _)).accepts
    | _ :: _ :: _ => exact absurd few (by simp)

theorem accepts_filter (keep : Ty → Bool) :
    ctx.Accepts (.union ((ctx.aliases.concrete source).unionMembers.filter keep)) source := by
  refine accepts_union firm (fun m kept => ?_) (List.length_filter_le _ _)
  exact leaves_member wf wfSource firm (List.mem_of_mem_filter kept)

/-- A condition that leaves members, or literals of keyword members, refines the source. -/
theorem accepts_filterMap (part? : Ty → Option Ty)
    (parts : ∀ m part, part? m = some part →
      part = m ∨ ∃ l : Literal, part = .literal l ∧ m = .primitive l.base) :
    ctx.Accepts (.union ((ctx.aliases.concrete source).unionMembers.filterMap part?)) source := by
  refine accepts_union firm (fun part kept => ?_) (List.length_filterMap_le _ _)
  obtain ⟨m, listed, found⟩ := List.mem_filterMap.mp kept
  rcases parts m part found with rfl | ⟨l, rfl, rfl⟩
  · exact leaves_member wf wfSource firm listed
  · exact ⟨.literal l, rfl, accepts_keywordLiteral wf wfSource firm listed⟩

end Parts

end Context

theorem Ty.withoutLiteral?_cases {l : Literal} {m part : Ty}
    (found : withoutLiteral? (.literal l) m = some part) :
    part = m ∨ ∃ k : Literal, part = .literal k ∧ m = .primitive k.base := by
  unfold withoutLiteral? at found
  split at found
  · cases found
  · split at found
    · cases found
      exact Or.inr ⟨.boolean _, rfl, rfl⟩
    · cases found
      exact Or.inl rfl

theorem AliasMap.length_literalParts_le (aliases : AliasMap) (literal : Ty) (members : List Ty) :
    (aliases.literalParts literal members).value.length ≤ members.length := by
  induction members with
  | nil => exact Nat.le_refl _
  | cons m ms ih =>
      have one : (aliases.literalPart literal m).value.length ≤ 1 := by
        rw [literalPart]
        split
        · exact Nat.le_refl _
        · rw [Limited.value_bind]
          split
          · exact Nat.le_refl _
          · exact Nat.zero_le _
      simp only [literalParts, Limited.value_bind, Limited.value_pure, List.length_append,
        List.length_cons]
      omega

/-- A condition that compares the variable compares it with a literal. -/
def Guard.isPlain : Guard → Bool
  | .equals ty => ty.isLiteral
  | _ => true

namespace Context

section Narrowing

variable {ctx : Context} {source : Ty} (wf : ctx.aliases.WellFormed) (wfSource : source.WellFormed)
  (firm : Firm ctx.aliases source)

include wf wfSource firm

theorem accepts_narrowTo (target : Ty) :
    ctx.Accepts (ctx.aliases.narrowTo source target).value source := by
  rw [AliasMap.narrowTo]
  split
  case isTrue isAny => exact ctx.accepts_anyTarget isAny
  case isFalse =>
    rw [Limited.value_bind, Limited.value_filter]
    exact accepts_filter wf wfSource firm _

theorem accepts_narrowExcluding (target : Ty) :
    ctx.Accepts (ctx.aliases.narrowExcluding source target).value source := by
  rw [AliasMap.narrowExcluding]
  split
  case isTrue => exact ctx.accepts_of_offer wf ⟨wfSource, wfSource, firm, .refl source⟩
  case isFalse =>
    rw [Limited.value_bind, Limited.value_filter]
    exact accepts_filter wf wfSource firm _

/-- The tests that are made on each member see the source only once it has been made concrete. -/
theorem accepts_memberTest (test : MemberTest) (sense : Bool) :
    ctx.Accepts (ctx.aliases.narrow source test.guard sense).value source := by
  have again : ctx.aliases.narrow source test.guard sense =
      ctx.aliases.narrow (ctx.aliases.concrete source) test.guard sense := by
    cases test <;> cases sense <;>
      simp only [MemberTest.guard, AliasMap.narrow, AliasMap.narrowTypeof, AliasMap.narrowToNullish,
        AliasMap.narrowTruthy, AliasMap.narrowFalsy, firm.concrete]
  by_cases isAny : (ctx.aliases.concrete source).isAny = true
  · exact ctx.accepts_anyTarget isAny
  · rw [Bool.not_eq_true] at isAny
    rw [again, MemberTest.narrow_eq_left firm.concrete isAny]
    exact accepts_filterMap wf wfSource firm _ fun m part => MemberTest.part?_cases

/-- A literal is left of the members that accept it. -/
theorem accepts_narrowToLiteral (l : Literal) :
    ctx.Accepts (ctx.aliases.narrowToLiteral source (.literal l)).value source := by
  rw [AliasMap.narrowToLiteral]
  split
  case isTrue isAny => exact ctx.accepts_anyTarget isAny
  case isFalse =>
    rw [Limited.value_bind]
    refine accepts_union firm (fun part kept => ?_) (AliasMap.length_literalParts_le _ _ _)
    obtain ⟨m, listed, found⟩ := (ctx.aliases.mem_literalParts _).mp kept
    rw [AliasMap.literalPart] at found
    split at found
    · cases List.mem_singleton.mp found
      exact leaves_member wf wfSource firm listed
    · rw [Limited.value_bind] at found
      split at found
      case isTrue accepted =>
        cases List.mem_singleton.mp found
        -- the member was asked under the default settings; a positive answer holds under all
        have derived : Derivable ctx.aliases [] ⟨.literal l, m⟩ :=
          ctx.aliases.narrowing.derivable_of_compatible accepted
        have granted := ctx.accepts_of_derivable derived
        exact ⟨.literal l, rfl, accepts_memberLiteral firm listed granted⟩
      case isFalse => cases found

theorem accepts_narrowExcludingLiteral (l : Literal) :
    ctx.Accepts (ctx.aliases.narrowExcludingLiteral source (.literal l)) source := by
  rw [AliasMap.narrowExcludingLiteral]
  split
  case isTrue isAny => exact ctx.accepts_anyTarget isAny
  case isFalse =>
    exact accepts_filterMap wf wfSource firm _ fun m part => Ty.withoutLiteral?_cases

theorem accepts_narrowByPredicate (guard : Ty) :
    ctx.Accepts (ctx.aliases.narrowByPredicate source guard).value source := by
  have members := accepts_narrowTo wf wfSource firm guard
  rw [AliasMap.narrowByPredicate, Limited.value_bind]
  split
  · rw [Limited.value_bind]
    split
    case isTrue accepted =>
      have derived : Derivable ctx.aliases [] ⟨guard, ctx.aliases.concrete source⟩ :=
        ctx.aliases.narrowing.derivable_of_compatible accepted
      have same : Query.concrete ⟨guard, ctx.aliases.concrete source⟩ ctx.aliases =
          Query.concrete ⟨guard, source⟩ ctx.aliases := by
        rw [Query.concrete, Query.concrete, firm.concrete]
      exact (ctx.accepts_of_derivable derived).congr same
    case isFalse => exact members
  · exact members

theorem accepts_narrowAgainstPredicate (guard : Ty) :
    ctx.Accepts (ctx.aliases.narrowAgainstPredicate source guard).value source := by
  rw [AliasMap.narrowAgainstPredicate]
  split
  case isTrue isAny => exact ctx.accepts_anyTarget isAny
  case isFalse =>
    rw [AliasMap.filterMembers, Limited.value_bind, Limited.value_filter, firm.concrete]
    exact accepts_filter wf wfSource firm _

theorem accepts_narrow (guard : Guard) (sense : Bool) (plain : guard.isPlain = true) :
    ctx.Accepts (ctx.aliases.narrow source guard sense).value source := by
  cases guard with
  | typeofIs name => exact accepts_memberTest wf wfSource firm (.typeofIs name) sense
  | nullish => exact accepts_memberTest wf wfSource firm .nullish sense
  | truthy => exact accepts_memberTest wf wfSource firm .truthy sense
  | equals literal =>
      cases literal with
      | literal l =>
          cases sense with
          | true => exact accepts_narrowToLiteral wf wfSource firm l
          | false => exact accepts_narrowExcludingLiteral wf wfSource firm l
      | _ => cases plain
  | is ty =>
      cases sense with
      | true => exact accepts_narrowByPredicate wf wfSource firm ty
      | false => exact accepts_narrowAgainstPredicate wf wfSource firm ty

end Narrowing

/-- Without `keyof` and endless chains of references, what a condition leaves of a source goes where
the source is expected, and so does what is left when the members that match a target are picked or
taken away. -/
theorem narrow_refines (ctx : Context) (wf : ctx.aliases.WellFormed) (plain : ctx.aliases.Plain)
    (source : Ty) (wfSource : source.WellFormed) (free : source.KeyofFree) :
    let refines := fun ty =>
      (ctx.compatible ty source).cut = false → (ctx.compatible ty source).value = true
    (∀ guard sense, guard.isPlain = true →
      refines (ctx.aliases.narrow source guard sense).value) ∧
    ∀ target, refines (ctx.aliases.narrowTo source target).value ∧
      refines (ctx.aliases.narrowExcluding source target).value := by
  intro refines
  have firm := firm_of_keyofFree plain free
  refine ⟨fun guard sense compares => ?_, fun target => ⟨?_, ?_⟩⟩
  · exact ctx.compatible_of_accepts (accepts_narrow wf wfSource firm guard sense compares)
  · exact ctx.compatible_of_accepts (accepts_narrowTo wf wfSource firm target)
  · exact ctx.compatible_of_accepts (accepts_narrowExcluding wf wfSource firm target)

/-- A list of lists is a union that refers to itself, and a name for numbers stands beside it. -/
def nested : Context where
  aliases :=
    { definitions :=
        [⟨"Nested", [], .unionOf [.ref "Nested", .array (.ref "Nested"), .string]⟩,
          ⟨"Count", [], .number⟩] }

/-- Of the union of both, a guard for anything but text leaves the name of the list of lists, which
refers to itself, and equality with a number leaves that number. -/
theorem nested_refined :
    let source : Ty := .unionOf [.ref "Nested", .ref "Count", .null]
    let zero : Ty := .literal (.number .zero)
    (nested.compatible (nested.aliases.narrow source .truthy true).value source).value = true ∧
      (nested.compatible (nested.aliases.narrow source (.equals zero) true).value source).value =
        true := by
  intro source zero
  have plain : nested.aliases.Plain := by
    refine ⟨by decide, fun d listed => ?_⟩
    simp only [nested, List.mem_cons, List.not_mem_nil, or_false] at listed
    rcases listed with rfl | rfl <;> exact ⟨_, rfl⟩
  have guards := (nested.narrow_refines (by decide) plain source (by decide) (by decide)).1
  refine ⟨guards .truthy true rfl ?_, guards (.equals zero) true rfl ?_⟩
  · decide +kernel
  · decide +kernel

end Context

end StructuralTypes
