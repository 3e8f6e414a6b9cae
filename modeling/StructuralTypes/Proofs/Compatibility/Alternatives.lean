import StructuralTypes.Proofs.Compatibility.Literal

set_option autoImplicit false

namespace StructuralTypes

section Alternatives

variable {aliases : AliasMap} {ty w m : Ty} {members : List Ty}

def Ty.isKeyof : Ty → Bool
  | .keyof _ => true
  | _ => false

/-- The types that a type comes to: itself, and the members of the unions among them. -/
inductive Alternative (aliases : AliasMap) (ty : Ty) : Ty → Prop
  | self : Alternative aliases ty ty
  | member {w m : Ty} {members : List Ty} (inside : Alternative aliases ty w)
    (union : aliases.concrete w = .unionOf members) (listed : m ∈ members) :
    Alternative aliases ty m

/-- What a type comes to is concrete once it has been made so. Chains of references that are too
long, and keys that have to be evaluated twice, are the exceptions. -/
def Firm (aliases : AliasMap) (ty : Ty) : Prop :=
  ∀ w, Alternative aliases ty w → aliases.concrete (aliases.concrete w) = aliases.concrete w

theorem Firm.concrete (firm : Firm aliases ty) :
    aliases.concrete (aliases.concrete ty) = aliases.concrete ty := firm ty .self

theorem Alternative.trans (first : Alternative aliases ty w) (second : Alternative aliases w m) :
    Alternative aliases ty m := by
  induction second with
  | self => exact first
  | member _ union listed ih => exact .member ih union listed

theorem Firm.alternative (firm : Firm aliases ty) (inside : Alternative aliases ty w) :
    Firm aliases w := fun v further => firm v (inside.trans further)

theorem Firm.member (firm : Firm aliases ty) (union : aliases.concrete ty = .unionOf members)
    (listed : m ∈ members) : Firm aliases m := firm.alternative (.member .self union listed)

theorem concrete_unionOf (members : List Ty) :
    aliases.concrete (.unionOf members) = .unionOf members :=
  AliasMap.concrete_eq_self rfl fun _ => Ty.noConfusion

/-- The members of a union as it is written. -/
theorem Firm.unionMember (firm : Firm aliases ty) (listed : m ∈ ty.unionMembers) :
    Firm aliases m := by
  cases ty with
  | unionOf members => exact firm.member (concrete_unionOf members) listed
  | _ =>
      cases List.mem_singleton.mp listed
      exact firm

/-- A type that is concrete and no union comes to nothing else. -/
theorem firm_of_concrete (own : aliases.concrete ty = ty) (single : ty.isUnion = false) :
    Firm aliases ty := by
  intro w inside
  have self : w = ty := by
    induction inside with
    | self => rfl
    | member _ union _ ih =>
        rw [ih, own] at union
        rw [union] at single
        cases single
  rw [self, own, own]

theorem firm_literal (l : Literal) : Firm aliases (.literal l) :=
  firm_of_concrete (concrete_literal l) rfl

end Alternatives

section Keys

/-- No `keyof` stands in a type. -/
def Ty.KeyofFree (ty : Ty) : Prop := ty.Throughout fun part => part.isKeyof = false

instance (ty : Ty) : Decidable ty.KeyofFree := inferInstanceAs (Decidable (ty.Throughout _))

/-- Every chain of references ends. -/
def AliasMap.Ends (aliases : AliasMap) : Prop :=
  ∀ d ∈ aliases.definitions, ∃ ty, aliases.tryResolve (.ref d.name) = .ok ty

/-- Definitions without `keyof`, in which every chain of references ends. -/
structure AliasMap.Plain (aliases : AliasMap) : Prop where
  keyofFree : ∀ d ∈ aliases.definitions, d.body.KeyofFree
  ends : ∀ d ∈ aliases.definitions, ∃ ty, aliases.tryResolve (.ref d.name) = .ok ty

variable {aliases : AliasMap} {ty resolved : Ty}

/-- The end of a chain is not followed any further. -/
theorem AliasMap.follow_end {left : Nat} {chain : List String}
    (ends : aliases.follow left chain ty = .ok resolved) : aliases.resolve resolved = resolved := by
  fun_induction follow aliases left chain ty with
  | case1 left chain name undeclared =>
      cases ends
      rw [resolve, tryResolve, follow, undeclared]
  | case2 => cases ends
  | case3 => cases ends
  | case4 chain name d found new left ih => exact ih ends
  | case5 left chain ty other =>
      cases ends
      refine resolve_of_refName?_eq_none ?_
      cases resolved with
      | ref name => exact absurd rfl (other name)
      | _ => rfl

theorem AliasMap.Ends.exists_tryResolve (ends : aliases.Ends) (ty : Ty) :
    ∃ resolved, aliases.tryResolve ty = .ok resolved := by
  cases ty with
  | ref name =>
      cases found : aliases.find? name with
      | none => exact ⟨.ref name, by rw [tryResolve, follow, found]⟩
      | some d =>
          have named : d.name = name := by simpa using List.find?_some found
          rw [← named]
          exact ends d (List.mem_of_find?_eq_some found)
  | _ => exact ⟨_, follow_of_refName?_eq_none rfl⟩

theorem AliasMap.concrete_of_resolve (free : resolved.KeyofFree)
    (ended : aliases.resolve ty = resolved) : aliases.concrete ty = resolved := by
  rw [concrete, ended]
  cases resolved with
  | keyof subject => cases free.here
  | _ => rfl

theorem AliasMap.Plain.concrete_keyofFree (plain : aliases.Plain) (free : ty.KeyofFree) :
    (aliases.concrete ty).KeyofFree ∧
      aliases.concrete (aliases.concrete ty) = aliases.concrete ty := by
  obtain ⟨resolved, ends⟩ := AliasMap.Ends.exists_tryResolve plain.ends ty
  have freeEnd : resolved.KeyofFree := by
    have ended := follow_induction plain.keyofFree aliases.maxDepth [] free
    rw [← tryResolve, ends] at ended
    exact ended
  have once : aliases.concrete ty = resolved :=
    concrete_of_resolve freeEnd (by rw [resolve, ends])
  have again : aliases.concrete resolved = resolved := concrete_of_resolve freeEnd (follow_end ends)
  rw [once]
  exact ⟨freeEnd, again⟩

/-- Without `keyof` and endless chains, making a type concrete once is enough. -/
theorem firm_of_keyofFree (plain : aliases.Plain) (free : ty.KeyofFree) : Firm aliases ty := by
  have inside : ∀ w, Alternative aliases ty w → w.KeyofFree := by
    intro w alternative
    induction alternative with
    | self => exact free
    | member _ union listed ih =>
        have evaluated := (plain.concrete_keyofFree ih).1
        rw [union] at evaluated
        exact evaluated.child listed
  exact fun w alternative => (plain.concrete_keyofFree (inside w alternative)).2

end Keys

/-- The target offers the value: as itself, as the keyword type of a literal, or by a member. -/
inductive Offered (aliases : AliasMap) (value : Ty) : Ty → Prop
  | same {target : Ty} (equal : (aliases.concrete value).Same (aliases.concrete target)) :
    Offered aliases value target
  | base {target : Ty} {l : Literal} (literal : aliases.concrete value = .literal l)
    (keyword : aliases.concrete target = .primitive l.base) : Offered aliases value target
  | member {target m : Ty} {members : List Ty} (union : aliases.concrete target = .unionOf members)
    (listed : m ∈ members) (offered : Offered aliases value m) : Offered aliases value target

namespace Offered

variable {aliases : AliasMap} {value middle target : Ty}

theorem refl (ty : Ty) : Offered aliases ty ty := .same (Ty.same_self _)

theorem keyword (l : Literal) : Offered aliases (.literal l) (.primitive l.base) :=
  .base (concrete_literal l) (concrete_primitive l.base)

variable (wf : aliases.WellFormed) (wfValue : value.WellFormed) (wfTarget : target.WellFormed)

include wf wfValue wfTarget

/-- What is offered stays so when the target is written in another way. -/
theorem toSame {other : Ty} (wfOther : other.WellFormed) (offered : Offered aliases value target)
    (equal : (aliases.concrete target).Same (aliases.concrete other)) :
    Offered aliases value other := by
  induction offered generalizing other with
  | same own =>
      have wfV := AliasMap.concrete_wellFormed wf wfValue
      have wfT := AliasMap.concrete_wellFormed wf wfTarget
      have wfO := AliasMap.concrete_wellFormed wf wfOther
      exact .same (Ty.same_trans wfV wfT wfO own equal)
  | base literal keyword =>
      rw [keyword] at equal
      exact .base literal (Ty.eq_of_same_primitive equal)
  | @member target m members union listed offered ih =>
      have wfUnion := AliasMap.concrete_wellFormed wf wfTarget
      rw [union] at equal wfUnion
      obtain ⟨others, found, set⟩ := Ty.exists_unionOf_of_same wfUnion equal
      obtain ⟨n, inside, same⟩ := set.forth m listed
      have wfM := wfUnion.unionMember listed
      have wfN := wfM.of_same same
      have equalMembers := AliasMap.concrete_same wf wfM wfN same
      exact .member found inside (ih wfM wfN equalMembers)

theorem trans (wfMiddle : middle.WellFormed) (first : Offered aliases value middle)
    (second : Offered aliases middle target) : Offered aliases value target := by
  induction second with
  | same equal => exact first.toSame wf wfValue wfMiddle wfTarget equal
  | @base target l literal keyword =>
      cases first with
      | same equal =>
          rw [literal] at equal
          have wfV := AliasMap.concrete_wellFormed wf wfValue
          obtain ⟨k, found, same⟩ := Ty.exists_literal_of_same (Ty.same_symm wfV (.literal l) equal)
          rw [Literal.base_same same] at keyword
          exact .base found keyword
      | base _ other =>
          rw [literal] at other
          cases other
      | member union =>
          rw [literal] at union
          cases union
  | @member target m members union listed _ ih =>
      have wfUnion := AliasMap.concrete_wellFormed wf wfTarget
      rw [union] at wfUnion
      exact .member union listed (ih (wfUnion.unionMember listed))

/-- The members of a union are offered wherever the union is. -/
theorem alternative {members : List Ty} {m : Ty} (offered : Offered aliases value target)
    (union : aliases.concrete value = .unionOf members) (listed : m ∈ members) :
    Offered aliases m target := by
  have wfUnion := AliasMap.concrete_wellFormed wf wfValue
  rw [union] at wfUnion
  have fromUnion : Offered aliases m value := .member union listed (refl m)
  exact trans wf (wfUnion.unionMember listed) wfTarget wfValue fromUnion offered

/-- It makes no difference if the target has been made concrete. -/
theorem toConcrete (firm : Firm aliases value) (offered : Offered aliases value target) :
    Offered aliases value (aliases.concrete target) := by
  cases offered with
  | same equal =>
      have wfV := AliasMap.concrete_wellFormed wf wfValue
      have wfT := AliasMap.concrete_wellFormed wf wfTarget
      have again := AliasMap.concrete_same wf wfV wfT equal
      rw [firm.concrete] at again
      exact .same again
  | base literal keyword =>
      rw [keyword]
      exact .base literal (concrete_primitive _)
  | member union listed offered =>
      rw [union]
      exact .member (concrete_unionOf _) listed offered

omit wfTarget in
/-- Nothing but `never` is offered by `never`. -/
theorem isNever (offered : Offered aliases value target)
    (none : aliases.concrete target = .never) : aliases.concrete value = .never := by
  cases offered with
  | same equal =>
      rw [none] at equal
      have wfV := AliasMap.concrete_wellFormed wf wfValue
      exact Ty.eq_of_same_primitive (Ty.same_symm wfV (.primitive .never) equal)
  | @base _ l literal keyword =>
      rw [none] at keyword
      cases l <;> cases keyword
  | member union =>
      rw [none] at union
      cases union

omit wfTarget in
/-- A union is offered by unions only. -/
theorem isUnion {members : List Ty} (offered : Offered aliases value target)
    (union : aliases.concrete value = .unionOf members) :
    ∃ others, aliases.concrete target = .unionOf others := by
  cases offered with
  | same equal =>
      have wfUnion := AliasMap.concrete_wellFormed wf wfValue
      rw [union] at equal wfUnion
      obtain ⟨others, found, _⟩ := Ty.exists_unionOf_of_same wfUnion equal
      exact ⟨others, found⟩
  | base literal =>
      rw [union] at literal
      cases literal
  | member found => exact ⟨_, found⟩

end Offered

/-- An offered pair of well-formed types, whose value is concrete once it has been made so. -/
structure Offer (aliases : AliasMap) (value target : Ty) : Prop where
  wfValue : value.WellFormed
  wfTarget : target.WellFormed
  firm : Firm aliases value
  offered : Offered aliases value target

theorem Offer.justified {aliases : AliasMap} (wf : aliases.WellFormed) {value target : Ty}
    (offer : Offer aliases value target) :
    Justified aliases (fun v t => ∃ q : Query,
        Query.concrete ⟨v, t⟩ aliases = q.concrete aliases ∧ Offer aliases q.value q.target)
      (aliases.concrete value) (aliases.concrete target) := by
  obtain ⟨wfValue, wfTarget, firm, offered⟩ := offer
  by_cases several : (aliases.concrete value).isUnion = true
  · obtain ⟨members, union⟩ := Ty.exists_unionOf several
    obtain ⟨others, found⟩ := offered.isUnion wf wfValue union
    have wfUnion := AliasMap.concrete_wellFormed wf wfValue
    rw [union] at wfUnion
    rw [union, found]
    refine .byShape rfl (.ofUnion fun m listed => ⟨⟨m, target⟩, ?_, ?_⟩)
    · rw [Query.concrete, Query.concrete, found, concrete_unionOf]
    · exact ⟨wfUnion.unionMember listed, wfTarget, firm.member union listed,
        offered.alternative wf wfValue wfTarget union listed⟩
  · have single : (aliases.concrete value).isUnion = false := by simpa using several
    cases offered with
    | same equal => exact .equal equal
    | @base _ l literal keyword =>
        rw [literal, keyword]
        have inhabited : (Ty.primitive l.base).isNever = false := by cases l <;> rfl
        exact .byShape inhabited (.literalBase l)
    | @member _ m members union listed offered =>
        have wfUnion := AliasMap.concrete_wellFormed wf wfTarget
        rw [union] at wfUnion
        rw [union]
        refine .byShape rfl (.toUnion single listed (Or.inr ⟨⟨value, m⟩, ?_, ?_⟩))
        · rw [Query.concrete, Query.concrete, firm.concrete]
        · exact ⟨wfValue, wfUnion.unionMember listed, firm, offered⟩

section Unions

open Ty

variable {aliases : AliasMap} {tys : List Ty} {ty : Ty}

theorem Ty.WellFormed.unionMembers_inhabited (wf : ty.WellFormed) (inhabited : ty.isNever = false)
    {m : Ty} (listed : m ∈ ty.unionMembers) : m.isNever = false := by
  cases ty with
  | unionOf members => exact (wf.node.proper m listed).2
  | _ =>
      cases List.mem_singleton.mp listed
      exact inhabited

/-- A literal that is left out of a union stands next to its keyword type. -/
theorem exists_offered_keptMembers {members : List Ty} {m : Ty} (listed : m ∈ members)
    (inhabited : m.isNever = false) : ∃ kept ∈ keptMembers members, Offered aliases m kept := by
  have inside : m ∈ members.filter fun ty => !ty.isNever :=
    List.mem_filter.mpr ⟨listed, by rw [inhabited]; rfl⟩
  by_cases absorbed : isAbsorbed (members.filter fun ty => !ty.isNever) m = true
  · cases m with
    | literal l =>
        obtain ⟨base, found, isBase⟩ := List.any_eq_true.mp absorbed
        have keyword : base = .primitive l.base := by
          cases base with
          | primitive kind => simpa [primitive?] using isBase
          | _ => cases isBase
        cases keyword
        exact ⟨.primitive l.base, List.mem_filter.mpr ⟨found, rfl⟩, .keyword l⟩
    | _ => cases absorbed
  · exact ⟨m, List.mem_filter.mpr ⟨inside, by simpa using absorbed⟩, .refl m⟩

theorem offered_collapse {members : List Ty} {value m : Ty} (listed : m ∈ members)
    (offered : Offered aliases value m) :
    Offered aliases value (Ty.collapse Ty.never unionOf members) := by
  match members with
  | [only] =>
      cases List.mem_singleton.mp listed
      exact offered
  | _ :: _ :: _ => exact .member (concrete_unionOf _) listed offered

/-- A union offers what it is made of. -/
theorem offered_union (wf : aliases.WellFormed) (wfTys : ∀ ty ∈ tys, ty.WellFormed) {m : Ty}
    (listed : m ∈ tys.flatMap unionMembers) (inhabited : m.isNever = false)
    (proper : (union tys).isAny = false) : Offered aliases m (union tys) := by
  have wfMembers : ∀ m ∈ tys.flatMap unionMembers, m.WellFormed := by
    intro m listed
    obtain ⟨ty, inside, member⟩ := List.mem_flatMap.mp listed
    exact (wfTys ty inside).unionMembers member
  rw [union_eq] at proper ⊢
  by_cases anyInside : (distinct (tys.flatMap unionMembers)).any isAny = true
  · rw [if_pos anyInside] at proper
    cases proper
  · rw [if_neg anyInside]
    obtain ⟨first, inside, equal⟩ := (distinct_sameSet (tys.flatMap unionMembers)).back m listed
    have wfFirst := wfMembers first (mem_of_mem_distinct inside)
    have wfM := wfMembers m listed
    obtain ⟨kept, found, offered⟩ : ∃ kept ∈ keptMembers _, Offered aliases first kept :=
      exists_offered_keptMembers inside ((isNever_same equal).trans inhabited)
    have turned := AliasMap.concrete_same wf wfM wfFirst (same_symm wfFirst wfM equal)
    have wfKept := wfMembers kept (mem_of_mem_distinct (mem_of_mem_keptMembers found))
    exact offered_collapse found (.trans wf wfM wfKept wfFirst (.same turned) offered)

end Unions

namespace Context

variable (ctx : Context)

/-- What is offered is granted wherever it is asked. -/
theorem accepts_of_offer (wf : ctx.aliases.WellFormed) {value target : Ty}
    (offer : Offer ctx.aliases value target) : ctx.Accepts value target := by
  let pairs : Set Query :=
    { p | ∃ q : Query, p = q.concrete ctx.aliases ∧ Offer ctx.aliases q.value q.target }
  refine ctx.accepts_of_justified pairs ?_ ⟨⟨value, target⟩, rfl, offer⟩
  rintro p ⟨q, rfl, known⟩
  exact (known.justified wf).mono fun v t premise => Or.inl premise

/-- A union is granted wherever each of its members is offered. -/
theorem accepts_of_offers (wf : ctx.aliases.WellFormed) {value target : Ty}
    (inhabited : (ctx.aliases.concrete target).isNever = false)
    (offers : ∀ m ∈ value.unionMembers, Offer ctx.aliases m target) : ctx.Accepts value target := by
  cases value with
  | unionOf members =>
      refine ctx.accepts_of_justified {⟨.unionOf members, ctx.aliases.concrete target⟩} ?_ ?_
      · rintro p rfl
        refine .byShape inhabited (.ofUnion fun m listed => Or.inr ?_)
        obtain ⟨wfM, wfTarget, firm, offered⟩ := offers m listed
        exact ctx.accepts_of_offer wf ⟨wfM, AliasMap.concrete_wellFormed wf wfTarget, firm,
          offered.toConcrete wf wfM wfTarget firm⟩
      · rw [Query.concrete, concrete_unionOf]
        rfl
  | _ => exact ctx.accepts_of_offer wf (offers _ (.head _))

/-- What is granted depends on the concrete query only. -/
theorem Accepts.congr {ctx : Context} {value target value' target' : Ty}
    (granted : ctx.Accepts value target)
    (same : Query.concrete ⟨value, target⟩ ctx.aliases =
      Query.concrete ⟨value', target'⟩ ctx.aliases) : ctx.Accepts value' target' := by
  intro levels walk room
  rw [← ctx.check_congr same]
  exact granted levels walk room

/-- A union goes where each of its members goes. -/
theorem accepts_of_members {value target : Ty}
    (inhabited : (ctx.aliases.concrete target).isNever = false)
    (own : ctx.aliases.concrete (ctx.aliases.concrete target) = ctx.aliases.concrete target)
    (each : ∀ m ∈ value.unionMembers, ctx.Accepts m target) : ctx.Accepts value target := by
  cases value with
  | unionOf members =>
      refine ctx.accepts_of_justified {⟨.unionOf members, ctx.aliases.concrete target⟩} ?_ ?_
      · rintro p rfl
        refine .byShape inhabited (.ofUnion fun m listed => Or.inr ((each m listed).congr ?_))
        rw [Query.concrete, Query.concrete, own]
      · rw [Query.concrete, concrete_unionOf]
        rfl
  | _ => exact each _ (.head _)

theorem accepts_never (target : Ty) : ctx.Accepts .never target := by
  refine ctx.accepts_of_derivable (.ofJustified ?_)
  rw [Query.concrete, concrete_primitive]
  exact .neverValue _

/-- What a slot holds goes where the slot is expected, also if that may be left out. -/
theorem accepts_declared (wf : ctx.aliases.WellFormed) {p : Property Ty} (wfTy : p.ty.WellFormed)
    (firm : Firm ctx.aliases p.ty) : ctx.Accepts p.ty p.declared := by
  have itself : ctx.Accepts p.ty p.ty := ctx.accepts_of_offer wf ⟨wfTy, wfTy, firm, .refl p.ty⟩
  rw [Property.declared]
  split
  case isFalse => exact itself
  case isTrue =>
    have wfPair : ∀ ty ∈ [p.ty, .undefined], ty.WellFormed :=
      List.forall_mem_cons.mpr ⟨wfTy, List.forall_mem_singleton.mpr (.primitive .undefined)⟩
    by_cases several : (Ty.union [p.ty, .undefined]).isUnion = true
    · obtain ⟨members, extended⟩ := Ty.exists_unionOf several
      have proper : (Ty.union [p.ty, .undefined]).isAny = false := by rw [extended]; rfl
      have inhabited : p.ty.isNever = false := by
        cases sort : p.ty.isNever with
        | false => rfl
        | true =>
            rw [(isNever_iff _).mp sort] at several
            cases several
      refine ctx.accepts_of_offers wf (by rw [extended, concrete_unionOf]; rfl) ?_
      intro m listed
      have inside : m ∈ [p.ty, .undefined].flatMap Ty.unionMembers :=
        List.mem_flatMap.mpr ⟨p.ty, .head _, listed⟩
      exact ⟨wfTy.unionMembers listed, Ty.union_wellFormed wfPair, firm.unionMember listed,
        offered_union wf wfPair inside (wfTy.unionMembers_inhabited inhabited listed) proper⟩
    · have single : (Ty.union [p.ty, .undefined]).isUnion = false := by simpa using several
      rcases Ty.union_undefined_single wfTy single with isNever | isAny | isUndefined
      · rw [isNever]
        exact ctx.accepts_never _
      · rw [isAny] at itself ⊢
        exact itself
      · rw [isUndefined] at itself ⊢
        exact itself

end Context

end StructuralTypes
