import StructuralTypes.Proofs.Narrowing.Members

set_option autoImplicit false

namespace StructuralTypes

namespace MemberTest

variable {aliases : AliasMap} {sense : Bool} {test : MemberTest}

section Members

variable {name : String} {before after : List Ty} {body : Ty}

/-- A name that is dropped leaves nothing behind, whatever it stands for. -/
theorem left_dropped (wfOthers : ∀ ty ∈ before ++ after, ty.WellFormed)
    (proper : (Ty.union (before ++ .ref name :: after)).isAny = false)
    (dropped : test.part? aliases sense (.ref name) = none) :
    test.left aliases sense (.union (before ++ .ref name :: after)) =
      test.left aliases sense (.union (before ++ after)) := by
  let keep : Ty → Bool := fun ty => ty.refName? != some name
  have respects (a b : Ty) (equal : a.Same b) : keep a = keep b := by
    simp only [keep, AliasMap.refName?_same equal]
  have wfNamed := Ty.forall_mem_insert wfOthers (.ref name)
  have properOthers : (Ty.union (before ++ after)).isAny = false := by
    rw [Ty.isAny_union_eq_false_iff] at proper ⊢
    intro m listed
    exact proper m (Ty.mem_flatMap_insert_iff.mpr (Or.inl listed))
  have others : ((before ++ .ref name :: after).flatMap Ty.unionMembers).filter keep =
      ((before ++ after).flatMap Ty.unionMembers).filter keep := by
    simp [keep, Ty.unionMembers, Ty.refName?]
  have passed (tys : List Ty) : tys.filterMap (test.part? aliases sense) =
      (tys.filter keep).filterMap (test.part? aliases sense) := by
    rw [List.filterMap_filter]
    refine List.filterMap_congr fun ty _ => ?_
    split
    case isTrue => rfl
    case isFalse named =>
      have isName : ty.refName? = some name := by simpa [keep] using named
      rw [AliasMap.eq_ref_of_refName? isName, dropped]
  rw [left_union wfNamed proper, left_union wfOthers properOthers, passed,
    passed (Ty.unionParts (before ++ after)), Ty.unionParts, Ty.unionParts,
    Ty.keptMembers_filter respects (fun _ => rfl), Ty.keptMembers_filter respects (fun _ => rfl),
    others]

/-- A part of the union with the definition that another member has given is a part of the union
with the name too. -/
theorem exists_same_unionParts (name : String) {n : Ty}
    (member : n ∈ Ty.unionParts (before ++ body :: after))
    (other : n ∈ (before ++ after).flatMap Ty.unionMembers) :
    ∃ own ∈ Ty.unionParts (before ++ .ref name :: after), own.Same n := by
  obtain ⟨_, inhabited, unabsorbed⟩ := Ty.mem_unionParts_iff.mp member
  have listed : n ∈ (before ++ .ref name :: after).flatMap Ty.unionMembers :=
    Ty.mem_flatMap_insert_iff.mpr (Or.inl other)
  obtain ⟨own, inside, equal⟩ := (Ty.distinct_sameSet _).back n listed
  refine ⟨own, Ty.mem_unionParts_iff.mpr ⟨inside, ?_, ?_⟩, equal⟩
  · rw [Ty.isNever_same equal, inhabited]
  · rw [Ty.isAbsorbed_same (.refl _) equal]
    -- a keyword type that stands next to the name stands next to the definition too
    refine Ty.isAbsorbed_mono (fun kind keyword => ?_) unabsorbed
    rcases Ty.mem_flatMap_insert_iff.mp keyword with elsewhere | impossible
    · exact Ty.mem_flatMap_insert_iff.mpr (Or.inl elsewhere)
    · cases List.mem_singleton.mp impossible

end Members

/-- A declared name for a type that is not a name itself, where resolution may follow a name. -/
structure NameFor (aliases : AliasMap) (name : String) (body : Ty) : Prop where
  declared : ∃ d, aliases.find? name = some d ∧ d.body = body
  direct : body.refName? = none
  followed : 0 < aliases.maxDepth

namespace NameFor

variable {name : String} {body : Ty} (named : NameFor aliases name body)

include named

theorem wellFormed (wf : aliases.WellFormed) : body.WellFormed := by
  obtain ⟨d, found, rfl⟩ := named.declared
  exact wf.body found

theorem concrete_ref : aliases.concrete (.ref name) = aliases.concrete body := by
  obtain ⟨d, found, isBody⟩ := named.declared
  obtain ⟨more, depth⟩ := Nat.exists_eq_add_one_of_ne_zero (Nat.ne_of_gt named.followed)
  have resolved : aliases.resolve (.ref name) = body := by
    rw [AliasMap.resolve, AliasMap.tryResolve, depth, AliasMap.follow, found]
    simp [isBody, AliasMap.follow_of_refName?_eq_none named.direct]
  rw [AliasMap.concrete, AliasMap.concrete, resolved,
    AliasMap.resolve_of_refName?_eq_none named.direct]

/-- A name as a whole is narrowed as what it stands for. -/
theorem narrow_ref :
    aliases.narrow (.ref name) test.guard sense = aliases.narrow body test.guard sense := by
  cases test <;> cases sense <;>
    simp only [guard, AliasMap.narrow, AliasMap.narrowTypeof, AliasMap.narrowToNullish,
      AliasMap.narrowTruthy, AliasMap.narrowFalsy, named.concrete_ref]

/-- A name offers the members of what it stands for. -/
theorem offered_ref {m : Ty} (member : m ∈ body.unionMembers) : Offered aliases m (.ref name) := by
  have equal := named.concrete_ref
  by_cases several : body.isUnion = true
  · obtain ⟨members, rfl⟩ := Ty.exists_unionOf several
    rw [concrete_unionOf] at equal
    exact .member equal member (.refl m)
  · rw [Bool.not_eq_true] at several
    rw [Ty.unionMembers_eq_self several] at member
    cases List.mem_singleton.mp member
    refine .same ?_
    rw [equal]
    exact Ty.same_self _

end NameFor

section Comparison

variable {name : String} {body : Ty} {before after : List Ty}

theorem isAny_named (proper : (Ty.union (before ++ body :: after)).isAny = false) :
    (Ty.union (before ++ .ref name :: after)).isAny = false := by
  rw [Ty.isAny_union_eq_false_iff] at proper ⊢
  intro m listed
  rcases Ty.mem_flatMap_insert_iff.mp listed with other | here
  · exact proper m (Ty.mem_flatMap_insert_iff.mpr (Or.inl other))
  · cases List.mem_singleton.mp here
    rfl

/-- Each part that is left for the definition is offered by what is left for the name, if the name
is kept or nothing of its definition is. -/
theorem offered_named (wf : aliases.WellFormed) (named : NameFor aliases name body)
    (wfOthers : ∀ ty ∈ before ++ after, ty.WellFormed)
    (proper : (Ty.union (before ++ body :: after)).isAny = false)
    (fair : test.part? aliases sense (.ref name) ≠ none ∨
      ∀ m ∈ body.unionMembers, test.part? aliases sense m = none)
    {m part : Ty} (member : m ∈ Ty.unionParts (before ++ body :: after))
    (found : test.part? aliases sense m = some part) :
    Offered aliases part (test.left aliases sense (.union (before ++ .ref name :: after))) := by
  have wfWritten := Ty.forall_mem_insert wfOthers (named.wellFormed wf)
  have wfNamed := Ty.forall_mem_insert wfOthers (.ref name)
  have properNamed : (Ty.union (before ++ .ref name :: after)).isAny = false := isAny_named proper
  have wfLeft : (test.left aliases sense (.union (before ++ .ref name :: after))).WellFormed :=
    left_wellFormed wfNamed properNamed
  have wfM := unionParts_wellFormed wfWritten member
  have wfPart := wellFormed_part found wfM
  rcases Ty.mem_flatMap_insert_iff.mp (Ty.mem_of_mem_unionParts member) with other | inside
  · obtain ⟨own, kept, equal⟩ := exists_same_unionParts name member other
    have wfOwn := unionParts_wellFormed wfNamed kept
    obtain ⟨ownPart, ownFound, same⟩ := part?_same wf wfM wfOwn equal found
    have wfOwnPart := wellFormed_part ownFound wfOwn
    have turned := AliasMap.concrete_same wf wfPart wfOwnPart (Ty.same_symm wfOwnPart wfPart same)
    exact .trans wf wfPart wfLeft wfOwnPart (.same turned)
      (offered_left wfNamed properNamed wf kept ownFound)
  · rcases fair with kept | dropped
    · obtain ⟨whole, foundName⟩ := Option.ne_none_iff_exists'.mp kept
      have listed : Ty.ref name ∈ Ty.unionParts (before ++ .ref name :: after) := by
        apply Ty.ref_mem_unionParts
        exact Ty.mem_flatMap_insert_iff.mpr (Or.inr (.head _))
      have fromName := offered_left wfNamed properNamed wf listed foundName
      rw [part?_ref foundName] at fromName
      have toName := named.offered_ref inside
      have toMember := offered_part found
      exact .trans wf wfPart wfLeft wfM toMember (.trans wf wfM wfLeft (.ref name) toName fromName)
    · rw [dropped m inside] at found
      cases found

end Comparison

end MemberTest

/-- A source that shows its members: it is neither `any` nor a name, and its members are concrete
once they have been made so, none of them under another name for `never`. -/
structure Explicit (aliases : AliasMap) (source : Ty) : Prop where
  proper : source.isAny = false
  own : aliases.concrete source = source
  firm : ∀ m ∈ source.unionMembers, Firm aliases m
  inhabited : ∀ m ∈ source.unionMembers, (aliases.concrete m).isNever = true → m.isNever = true

/-- What a test leaves of such a source is shown too. -/
theorem Explicit.part {aliases : AliasMap} {tys : List Ty} (shown : Explicit aliases (.union tys))
    (wf : ∀ ty ∈ tys, ty.WellFormed) {test : MemberTest} {sense : Bool} {m part : Ty}
    (member : m ∈ Ty.unionParts tys) (found : test.part? aliases sense m = some part) :
    Firm aliases part ∧ (aliases.concrete part).isNever = false := by
  rcases MemberTest.part?_cases found with rfl | ⟨l, rfl, _⟩
  · have inside := Ty.mem_unionMembers_union wf shown.proper member
    refine ⟨shown.firm part inside, ?_⟩
    by_contra renamed
    have isNever := shown.inhabited part inside (by simpa using renamed)
    rw [(Ty.mem_unionParts_iff.mp member).2.1] at isNever
    cases isNever
  · rw [concrete_literal]
    exact ⟨firm_literal l, rfl⟩

namespace Context

open MemberTest

variable (ctx : Context) {test : MemberTest} {sense : Bool}

/-- What is left of one union is accepted by what is left of another that offers each part of it. -/
theorem accepts_left (wf : ctx.aliases.WellFormed) {tys others : List Ty}
    (wfTys : ∀ ty ∈ tys, ty.WellFormed) (shown : Explicit ctx.aliases (.union tys))
    (wfOthers : ∀ ty ∈ others, ty.WellFormed) (proper : (Ty.union others).isAny = false)
    (offered : ∀ m ∈ Ty.unionParts tys, ∀ part, test.part? ctx.aliases sense m = some part →
      Offered ctx.aliases part (test.left ctx.aliases sense (.union others))) :
    ctx.Accepts (test.left ctx.aliases sense (.union tys))
      (test.left ctx.aliases sense (.union others)) := by
  have wfValue : (test.left ctx.aliases sense (.union tys)).WellFormed :=
    left_wellFormed wfTys shown.proper
  have wfTarget : (test.left ctx.aliases sense (.union others)).WellFormed :=
    left_wellFormed wfOthers proper
  by_cases empty : (test.left ctx.aliases sense (.union tys)).isNever = true
  · rw [(isNever_iff _).mp empty]
    exact ctx.accepts_never _
  · rw [Bool.not_eq_true] at empty
    have offers : ∀ part ∈ (test.left ctx.aliases sense (.union tys)).unionMembers,
        Offer ctx.aliases part (test.left ctx.aliases sense (.union others)) ∧
          (ctx.aliases.concrete part).isNever = false := by
      intro part listed
      have inhabited := wfValue.unionMembers_inhabited empty listed
      obtain ⟨m, member, found⟩ := mem_left wfTys shown.proper listed inhabited
      obtain ⟨firm, shownPart⟩ := shown.part wfTys member found
      exact ⟨⟨wfValue.unionMembers listed, wfTarget, firm, offered m member part found⟩, shownPart⟩
    refine ctx.accepts_of_offers wf ?_ fun part listed => (offers part listed).1
    -- what offers an inhabited part is inhabited itself
    obtain ⟨part, listed⟩ := wfValue.exists_unionMember
    obtain ⟨offer, inhabited⟩ := offers part listed
    by_contra isNever
    rw [Bool.not_eq_false, isNever_iff] at isNever
    rw [offer.offered.isNever wf offer.wfValue isNever] at inhabited
    cases inhabited

/-- Where a name stands for a member of a union, a test loses nothing of the member if it keeps the
name, or if it keeps nothing of what the name stands for. A name that is not kept is lost as a
whole. A name that is all of the source is narrowed as what it stands for. -/
theorem narrow_named (wf : ctx.aliases.WellFormed) {name : String} {body : Ty}
    (nameFor : NameFor ctx.aliases name body) (test : MemberTest) (sense : Bool) :
    let narrowed := fun source => (ctx.aliases.narrow source test.guard sense).value
    narrowed (.ref name) = narrowed body ∧
    ∀ before after : List Ty, (∀ ty ∈ before ++ after, ty.WellFormed) →
      let written := Ty.union (before ++ body :: after)
      let named := Ty.union (before ++ .ref name :: after)
      Explicit ctx.aliases written → ctx.aliases.concrete named = named →
      (test.part? ctx.aliases sense (.ref name) = none →
        narrowed named = test.left ctx.aliases sense (.union (before ++ after))) ∧
      ((test.part? ctx.aliases sense (.ref name) ≠ none ∨
          ∀ m ∈ body.unionMembers, test.part? ctx.aliases sense m = none) →
        (ctx.compatible (narrowed written) (narrowed named)).cut = false →
        (ctx.compatible (narrowed written) (narrowed named)).value = true) := by
  intro narrowed
  refine ⟨congrArg Limited.value nameFor.narrow_ref, ?_⟩
  intro before after wfOthers written named shown own
  have properNamed : named.isAny = false := isAny_named shown.proper
  have leftNamed : narrowed named = test.left ctx.aliases sense named :=
    narrow_eq_left own properNamed
  have leftWritten : narrowed written = test.left ctx.aliases sense written :=
    narrow_eq_left shown.own shown.proper
  constructor
  · intro dropped
    rw [leftNamed]
    exact left_dropped wfOthers properNamed dropped
  · intro fair
    rw [leftNamed, leftWritten]
    apply ctx.compatible_of_accepts
    apply ctx.accepts_left wf (Ty.forall_mem_insert wfOthers (nameFor.wellFormed wf)) shown
      (Ty.forall_mem_insert wfOthers (.ref name)) properNamed
    intro m member part found
    exact offered_named wf nameFor wfOthers shown.proper fair member found

/-- A name for `null` and one for strings and numbers. -/
def labels : Context where
  aliases := { definitions :=
    [{ name := "Nothing", body := .null }, { name := "Id", body := .unionOf [.string, .number] }] }

/-- The name is kept where the variable is not `null`. -/
theorem id_narrowed :
    let narrowed := fun source => (labels.aliases.narrow source .nullish false).value
    let written := Ty.union [.null, .unionOf [.string, .number], .boolean]
    let named := Ty.union [.null, .ref "Id", .boolean]
    (labels.compatible (narrowed written) (narrowed named)).cut = false ∧
      (labels.compatible (narrowed written) (narrowed named)).value = true := by
  intro narrowed written named
  have nameFor : NameFor labels.aliases "Id" (.unionOf [.string, .number]) :=
    ⟨⟨_, rfl, rfl⟩, rfl, by decide⟩
  have plain : labels.aliases.Plain := by
    refine ⟨by decide, fun d listed => ?_⟩
    simp only [labels, List.mem_cons, List.not_mem_nil, or_false] at listed
    rcases listed with rfl | rfl <;> exact ⟨_, rfl⟩
  have free : ∀ m ∈ written.unionMembers, m.KeyofFree := by decide
  have shown : Explicit labels.aliases written :=
    ⟨rfl, rfl, fun m listed => firm_of_keyofFree plain (free m listed), by decide⟩
  have kept := (labels.narrow_named (by decide) nameFor .nullish false).2 [.null] [.boolean]
    (by decide) shown rfl
  have finished : (labels.compatible (narrowed written) (narrowed named)).cut = false := by decide
  exact ⟨finished, kept.2 (Or.inl nofun) finished⟩

/-- A name for `null` is lost where the variable is `null` or false, and a name for a union is lost
under the `typeof` name of a member. -/
theorem names_lost :
    let kept := fun (guard : Guard) (sense : Bool) (written named : List Ty) =>
      labels.compatible (labels.aliases.narrow (.union written) guard sense).value
        (labels.aliases.narrow (.union named) guard sense).value
    let ofNothing := fun guard sense =>
      kept guard sense [.string, .null] [.string, .ref "Nothing"]
    let ofId := fun name =>
      kept (.typeofIs name) true [.null, .unionOf [.string, .number]] [.null, .ref "Id"]
    ((ofNothing .nullish true).cut = false ∧ (ofNothing .nullish true).value = false) ∧
    ((ofNothing .truthy false).cut = false ∧ (ofNothing .truthy false).value = false) ∧
    ((ofId "string").cut = false ∧ (ofId "string").value = false) := by
  decide

end Context

end StructuralTypes
