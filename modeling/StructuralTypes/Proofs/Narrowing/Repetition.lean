import StructuralTypes.Proofs.NormalForm.Engine
import StructuralTypes.Proofs.Narrowing.Partition
import StructuralTypes.Proofs.Narrowing.Refinement

set_option autoImplicit false

namespace StructuralTypes

namespace Ty

section Names

variable {aliases : AliasMap} {ty : Ty} {tys : List Ty}

/-- Neither a name nor a `keyof` stands in a type. -/
def NameFree (ty : Ty) : Prop :=
  ty.Throughout fun part => part.refName? = none ∧ part.isKeyof = false

instance (ty : Ty) : Decidable ty.NameFree := inferInstanceAs (Decidable (ty.Throughout _))

theorem NameFree.concrete (free : ty.NameFree) : aliases.concrete ty = ty := by
  refine AliasMap.concrete_eq_self free.here.1 fun subject found => ?_
  have evaluated := free.here.2
  rw [found] at evaluated
  cases evaluated

theorem NameFree.unionMember (free : ty.NameFree) {m : Ty} (member : m ∈ ty.unionMembers) :
    m.NameFree := by
  cases ty with
  | unionOf members => exact free.child member
  | _ =>
      cases List.mem_singleton.mp member
      exact free

theorem nameFree_primitive (kind : Primitive) : (primitive kind).NameFree := .intro ⟨rfl, rfl⟩ nofun

theorem nameFree_literal (l : Literal) : (literal l).NameFree := .intro ⟨rfl, rfl⟩ nofun

theorem nameFree_union (free : ∀ ty ∈ tys, ty.NameFree) : (union tys).NameFree := by
  by_cases found : ∃ m ∈ tys.flatMap unionMembers, m.isAny = true
  · rw [union_of_any found]
    exact nameFree_primitive .any
  · have part (m : Ty) (kept : m ∈ unionParts tys) : m.NameFree := by
      obtain ⟨ty, listed, inside⟩ := List.mem_flatMap.mp (mem_of_mem_unionParts kept)
      exact (free ty listed).unionMember inside
    rw [union_eq_collapse (without_any found)]
    match unionParts tys, part with
    | [], _ => exact nameFree_primitive .never
    | [only], part => exact part only (.head _)
    | _ :: _ :: _, part => exact .intro ⟨rfl, rfl⟩ part

end Names

section Parts

variable {part? : Ty → Option Ty} {ty : Ty}

/-- What is left of a member is the member or a literal, and all of that is left of it again. -/
structure Settles (part? : Ty → Option Ty) : Prop where
  parts : ∀ m part, part? m = some part → part = m ∨ part.isLiteral = true
  again : ∀ m part, part? m = some part → part? part = some part
  nothing : ∀ part, part? never = some part → part = never

/-- A type whose members are left as they are is left as it is. -/
theorem union_filterMap_of_fixed (wf : ty.WellFormed)
    (nothing : ∀ part, part? never = some part → part = never)
    (fixed : ∀ m ∈ ty.inhabitedMembers, part? m = some m) :
    union (ty.unionMembers.filterMap part?) = ty := by
  by_cases isNever : ty.isNever = true
  · rw [(isNever_iff ty).mp isNever]
    cases found : part? never with
    | none => simp [unionMembers, found]; rfl
    | some part => simp [unionMembers, found, nothing part found]; rfl
  · rw [Bool.not_eq_true] at isNever
    rw [wf.inhabitedMembers_eq isNever] at fixed
    rw [List.filterMap_congr fixed, List.filterMap_some, union_unionMembers wf]

namespace Settles

variable (settles : Settles part?) (wf : ty.WellFormed)

include settles wf

theorem part {part : Ty} (listed : part ∈ ty.unionMembers.filterMap part?) :
    part.WellFormed ∧ part.isUnion = false ∧ (ty.isAny = false → part.isAny = false) ∧
      (ty.NameFree → part.NameFree) := by
  obtain ⟨m, member, found⟩ := List.mem_filterMap.mp listed
  rcases settles.parts m part found with rfl | isLiteral
  · exact ⟨wf.unionMembers member, wf.unionMembers_flat member,
      fun proper => wf.unionMembers_proper proper member, fun free => free.unionMember member⟩
  · obtain ⟨l, rfl⟩ := exists_literal isLiteral
    exact ⟨.literal l, rfl, fun _ => rfl, fun _ => nameFree_literal l⟩

theorem left_wellFormed : (union (ty.unionMembers.filterMap part?)).WellFormed :=
  union_wellFormed fun _ listed => (settles.part wf listed).1

theorem left_nameFree (free : ty.NameFree) : (union (ty.unionMembers.filterMap part?)).NameFree :=
  nameFree_union fun _ listed => (settles.part wf listed).2.2.2 free

variable (proper : ty.isAny = false)

include proper

theorem isAny_left : (union (ty.unionMembers.filterMap part?)).isAny = false := by
  rw [isAny_union_eq_false_iff]
  intro m inside
  rw [flatMap_unionMembers fun p listed => (settles.part wf listed).2.1] at inside
  exact (settles.part wf inside).2.2.1 proper

/-- What is left of a type is left as it is. -/
theorem left_left :
    union ((union (ty.unionMembers.filterMap part?)).unionMembers.filterMap part?) =
      union (ty.unionMembers.filterMap part?) := by
  refine union_filterMap_of_fixed (settles.left_wellFormed wf) settles.nothing fun m member => ?_
  have wfParts (p : Ty) (listed : p ∈ ty.unionMembers.filterMap part?) : p.WellFormed :=
    (settles.part wf listed).1
  rw [inhabitedMembers_union wfParts (settles.isAny_left wf proper)] at member
  have listed := mem_of_mem_unionParts member
  rw [flatMap_unionMembers fun p inside => (settles.part wf inside).2.1] at listed
  obtain ⟨whole, _, found⟩ := List.mem_filterMap.mp listed
  exact settles.again whole m found

end Settles

end Parts

end Ty

namespace Guard

/-- The types that a condition compares with. -/
def types : Guard → List Ty
  | .equals literal => [literal]
  | .is ty => [ty]
  | _ => []

/-- What a condition leaves of `any`. -/
def ofAny (sense : Bool) : Guard → Ty
  | .typeofIs name => if sense then .ofTypeof name else .any
  | .equals literal => if sense then literal else .any
  | .nullish => if sense then .union [.null, .undefined] else .any
  | .truthy => .any
  | .is ty => if sense then ty else .any

end Guard

namespace AliasMap

/-- What a union member becomes where the variable equals a literal. -/
def literalPart? (aliases : AliasMap) (literal m : Ty) : Option Ty :=
  if m.same literal then some m
  else if (aliases.narrowing.compatible literal m).value then some literal
  else none

/-- What a condition leaves of a union member. -/
def part? (aliases : AliasMap) (sense : Bool) : Guard → Ty → Option Ty
  | .typeofIs name => MemberTest.part? aliases sense (.typeofIs name)
  | .nullish => MemberTest.part? aliases sense .nullish
  | .truthy => MemberTest.part? aliases sense .truthy
  | .equals literal =>
    if sense then aliases.literalPart? literal else Ty.withoutLiteral? literal
  | .is ty => fun m => if (aliases.narrowing.compatible m ty).value == sense then some m else none

/-- What a condition leaves of the members of a type. -/
def left (aliases : AliasMap) (sense : Bool) (guard : Guard) (ty : Ty) : Ty :=
  .union (ty.unionMembers.filterMap (aliases.part? sense guard))

variable {aliases : AliasMap} {sense : Bool} {guard : Guard} {source : Ty}

section Parts

theorem compatible_never {ty : Ty} (own : aliases.concrete ty = ty) :
    (aliases.narrowing.compatible ty .never).value = (ty.isAny || ty.isNever) := by
  have settled : (Query.concrete ⟨ty, .never⟩ aliases).settled? = some (ty.isAny || ty.isNever) := by
    rw [Query.concrete, own, concrete_primitive, Query.settled?]
    cases ty.isAny <;> cases ty.isNever <;> rfl
  rw [aliases.narrowing.compatible_of_settled settled]

/-- Both `any` and `never` go everywhere. -/
theorem compatible_of_vacuous {ty : Ty} (own : aliases.concrete ty = ty)
    (vacuous : (ty.isAny || ty.isNever) = true) :
    (aliases.narrowing.compatible ty source).value = true := by
  have settled : (Query.concrete ⟨ty, source⟩ aliases).settled? = some true := by
    rw [Query.concrete, own, Query.settled?]
    grind
  rw [aliases.narrowing.compatible_of_settled settled]

/-- A test that leaves a member as it is or nothing of it settles. -/
theorem settles_of_whole {part? : Ty → Option Ty} (whole : ∀ m part, part? m = some part → part = m) :
    Ty.Settles part? where
  parts m part found := Or.inl (whole m part found)
  again m part found := by
    cases whole m part found
    exact found
  nothing part found := whole .never part found

theorem settles_of_keyword {part? : Ty → Option Ty}
    (parts : ∀ m part, part? m = some part →
      part = m ∨ ∃ l : Literal, part = .literal l ∧ m = .primitive l.base)
    (again : ∀ m l, part? m = some (.literal l) → part? (.literal l) = some (.literal l)) :
    Ty.Settles part? where
  parts m part found := by
    rcases parts m part found with rfl | ⟨l, rfl, _⟩
    · exact Or.inl rfl
    · exact Or.inr rfl
  again m part found := by
    rcases parts m part found with rfl | ⟨l, rfl, _⟩
    · exact found
    · exact again m l found
  nothing part found := by
    rcases parts .never part found with rfl | ⟨l, _, keyword⟩
    · rfl
    · cases l <;> cases keyword

theorem settles_literalPart (l : Literal) : Ty.Settles (aliases.literalPart? (.literal l)) where
  parts m part found := by
    unfold literalPart? at found
    grind [Ty.isLiteral]
  again m part found := by
    unfold literalPart? at found ⊢
    have own : (Ty.literal l).same (.literal l) = true := Ty.same_self _
    grind
  nothing part found := by
    have refused : (aliases.narrowing.compatible (.literal l) .never).value = false :=
      compatible_never (concrete_literal l)
    rw [literalPart?, refused] at found
    cases found

/-- Where equality with a literal fails, `boolean` is left with the other of its two values. -/
theorem settles_withoutLiteral (l : Literal) : Ty.Settles (Ty.withoutLiteral? (.literal l)) := by
  refine settles_of_keyword (fun m part => Ty.withoutLiteral?_cases) fun m k found => ?_
  have different : (Ty.literal k).same (.literal l) = false := by
    unfold Ty.withoutLiteral? at found
    split at found
    next => cases found
    next unequal =>
      split at found
      next b isBoolean =>
        cases found
        rw [isBoolean]
        cases b <;> rfl
      next =>
        cases found
        simpa using unequal
  simp [Ty.withoutLiteral?, different]

theorem isFalsy_of_truthyPart {m : Ty} {l : Literal} (found : m.truthyPart? = some (.literal l)) :
    l.isFalsy = false := by
  unfold Ty.truthyPart? at found
  grind [Literal.isFalsy]

theorem isFalsy_of_falsyPart {m : Ty} {l : Literal} (found : m.falsyPart? = some (.literal l)) :
    l.isFalsy = true := by
  have text : (Literal.text "").isFalsy = true := by decide
  have number : (Literal.number .zero).isFalsy = true := by decide
  unfold Ty.falsyPart? at found
  grind [Literal.isFalsy]

theorem settles_truthy (aliases : AliasMap) (sense : Bool) :
    Ty.Settles (MemberTest.part? aliases sense .truthy) := by
  refine settles_of_keyword (fun m part => MemberTest.part?_cases) fun m l found => ?_
  cases sense with
  | true => exact if_neg (by simp [isFalsy_of_truthyPart found])
  | false => exact if_pos (isFalsy_of_falsyPart found)

theorem settles_of_ite (test : Ty → Bool) : Ty.Settles fun m => if test m then some m else none := by
  refine settles_of_whole fun m part found => ?_
  grind

theorem settles (plain : guard.isPlain = true) : Ty.Settles (aliases.part? sense guard) := by
  cases guard with
  | typeofIs name => exact settles_of_ite fun m => (aliases.concrete m).hasTypeof name == sense
  | nullish => exact settles_of_ite fun m => m.isNullish == sense
  | truthy => exact settles_truthy aliases sense
  | is ty => exact settles_of_ite fun m => (aliases.narrowing.compatible m ty).value == sense
  | equals literal =>
      cases literal with
      | literal l =>
          cases sense with
          | true => exact settles_literalPart l
          | false => exact settles_withoutLiteral l
      | _ => cases plain

end Parts

section Members

theorem literalParts_eq (aliases : AliasMap) (literal : Ty) (members : List Ty) :
    (aliases.literalParts literal members).value = members.filterMap (aliases.literalPart? literal) := by
  induction members with
  | nil => rfl
  | cons m ms ih =>
      have first : (aliases.literalPart literal m).value = (aliases.literalPart? literal m).toList := by
        rw [literalPart, literalPart?]
        split
        · rfl
        · rw [Limited.value_bind]
          split <;> rfl
      rw [literalParts, Limited.value_bind, Limited.value_bind, Limited.value_pure, first, ih,
        List.filterMap_cons]
      cases aliases.literalPart? literal m <;> rfl

variable (free : source.NameFree) (proper : source.isAny = false)

include free proper

/-- Narrowing leaves of a source what it leaves of its members. Only a guard function may do more. -/
theorem narrow_eq_left (plain : ∀ ty, guard = .is ty → sense = false) :
    (aliases.narrow source guard sense).value = aliases.left sense guard source := by
  have own : aliases.concrete source = source := free.concrete
  have tested (test : MemberTest) : (aliases.narrow source test.guard sense).value =
      test.left aliases sense source := MemberTest.narrow_eq_left own proper
  cases guard with
  | typeofIs name => exact tested (.typeofIs name)
  | nullish => exact tested .nullish
  | truthy => exact tested .truthy
  | equals literal =>
      cases sense with
      | true =>
          show (aliases.narrowToLiteral source literal).value = _
          rw [narrowToLiteral, own, proper, if_neg Bool.false_ne_true, Limited.value_bind,
            Limited.value_pure, literalParts_eq]
          rfl
      | false =>
          show aliases.narrowExcludingLiteral source literal = _
          rw [narrowExcludingLiteral, own, proper]
          rfl
  | is ty =>
      cases plain ty rfl
      show (aliases.narrowAgainstPredicate source ty).value = _
      rw [narrowAgainstPredicate, own, proper, if_neg Bool.false_ne_true, filterMembers, own,
        Limited.value_bind, Limited.value_filter, Limited.value_pure, left]
      simp only [part?, MemberTest.filterMap_ite, Limited.value_bind, Limited.value_pure, beq_false]

theorem narrowTo_eq_left {ty : Ty} (freeTy : ty.NameFree) :
    (aliases.narrowTo source ty).value = aliases.left true (.is ty) source := by
  rw [narrowTo, free.concrete, proper, if_neg Bool.false_ne_true, Limited.value_bind, Limited.value_filter,
    Limited.value_pure, left]
  simp only [part?, MemberTest.filterMap_ite]
  congr 1
  refine List.filter_congr fun m member => ?_
  by_cases same : m.same ty = true
  · have equal : (aliases.concrete m).Same (aliases.concrete ty) := by
      rw [(free.unionMember member).concrete, freeTy.concrete]
      exact same
    rw [if_pos same, aliases.narrowing.compatible_of_equal equal]
    rfl
  · rw [if_neg same, beq_true]

/-- Where a guard function says yes but leaves no member, its type takes the place of the source if
it is compatible with it. -/
theorem narrow_is_eq {ty : Ty} (freeTy : ty.NameFree) :
    (aliases.narrow source (.is ty) true).value =
      if (aliases.left true (.is ty) source).isNever &&
        (aliases.narrowing.compatible ty source).value then ty
      else aliases.left true (.is ty) source := by
  show (aliases.narrowByPredicate source ty).value = _
  rw [narrowByPredicate, Limited.value_bind, narrowTo_eq_left free proper freeTy, free.concrete]
  cases (aliases.left true (.is ty) source).isNever with
  | true =>
      rw [if_pos rfl, Limited.value_bind, Bool.true_and]
      split <;> rfl
  | false => rfl

end Members

section Any

/-- Of `any` a condition leaves a fixed type. -/
theorem narrow_any : (aliases.narrow .any guard sense).value = guard.ofAny sense := by
  have own : aliases.concrete .any = .any := concrete_primitive .any
  cases guard with
  | is ty =>
      cases sense with
      | true =>
          show (aliases.narrowByPredicate .any ty).value = ty
          have whole : (aliases.narrowTo .any ty).value = ty := by
            rw [narrowTo, own]
            rfl
          rw [narrowByPredicate, Limited.value_bind, whole]
          split
          · rw [Limited.value_bind]
            split <;> rfl
          · rfl
      | false =>
          show (aliases.narrowAgainstPredicate .any ty).value = _
          rw [narrowAgainstPredicate, own]
          rfl
  | _ =>
      cases sense <;>
        simp only [narrow, narrowTypeof, narrowToLiteral, narrowExcludingLiteral, narrowToNullish,
          narrowTruthy, narrowFalsy, own] <;> rfl

theorem hasTypeof_ofTypeof {name : String} (known : (Ty.ofTypeof name).isAny = false) :
    (Ty.ofTypeof name).hasTypeof name = true := by
  unfold Ty.ofTypeof at known ⊢
  split at known <;> first | rfl | cases known

/-- What a condition leaves of `any` is no reference, and it is in normal form. -/
theorem ofAny_normal (sense : Bool)
    (normal : ∀ ty ∈ guard.types, ty.WellFormed ∧ ty.NameFree) :
    (guard.ofAny sense).WellFormed ∧ (guard.ofAny sense).NameFree := by
  have isAny : Ty.any.WellFormed ∧ Ty.any.NameFree := by decide
  cases sense with
  | false => cases guard <;> exact isAny
  | true =>
      cases guard with
      | typeofIs name =>
          refine ⟨Ty.ofTypeof_wellFormed name, ?_⟩
          show (Ty.ofTypeof name).NameFree
          unfold Ty.ofTypeof
          split <;> decide
      | equals literal => exact normal literal (.head _)
      | nullish =>
          show (Ty.union [.null, .undefined]).WellFormed ∧ (Ty.union [.null, .undefined]).NameFree
          decide
      | truthy => exact isAny
      | is ty => exact normal ty (.head _)

end Any

section Kept

/-- A type accepts each of its members. -/
theorem compatible_member {m ty : Ty} (wf : ty.WellFormed) (free : ty.NameFree)
    (member : m ∈ ty.unionMembers) : (aliases.narrowing.compatible m ty).value = true := by
  have own : aliases.concrete m = m := (free.unionMember member).concrete
  cases several : ty.isUnion with
  | true =>
      obtain ⟨members, rfl⟩ := Ty.exists_unionOf several
      have single : (aliases.concrete m).isUnion = false := by
        rw [own]
        exact wf.unionMembers_flat member
      refine aliases.narrowing.compatible_of_listed (Nat.succ_pos 99) free.concrete single ?_
      rw [show aliases.narrowing.aliases.concrete m = m from own]
      exact (Ty.isAmong_iff _ _).mpr ⟨m, member, Ty.same_self m⟩
  | false =>
      rw [Ty.unionMembers_eq_self several] at member
      cases List.mem_singleton.mp member
      exact aliases.narrowing.compatible_of_equal (Ty.same_self _)

theorem left_of_kept {ty : Ty} (plain : guard.isPlain = true) (wf : ty.WellFormed)
    (kept : ∀ m ∈ ty.unionMembers, aliases.part? sense guard m = some m) :
    aliases.left sense guard ty = ty :=
  Ty.union_filterMap_of_fixed wf (settles plain).nothing
    fun m member => kept m (List.mem_of_mem_filter member)

theorem left_is {ty : Ty} (wf : ty.WellFormed) (free : ty.NameFree) :
    aliases.left true (.is ty) ty = ty := by
  refine left_of_kept rfl wf fun m member => ?_
  simp [part?, compatible_member wf free member]

/-- What a condition leaves of `any`, it leaves as it is. -/
theorem left_ofAny (plain : guard.isPlain = true)
    (normal : ∀ ty ∈ guard.types, ty.WellFormed ∧ ty.NameFree)
    (proper : (guard.ofAny sense).isAny = false) :
    aliases.left sense guard (guard.ofAny sense) = guard.ofAny sense := by
  have given := ofAny_normal sense normal
  cases sense with
  | false => cases guard <;> cases proper
  | true =>
      cases guard with
      | typeofIs name =>
          refine left_of_kept plain given.1 fun m member => ?_
          change m ∈ (Ty.ofTypeof name).unionMembers at member
          have single : (Ty.ofTypeof name).isUnion = false := by
            unfold Ty.ofTypeof
            split <;> rfl
          rw [Ty.unionMembers_eq_self single] at member
          cases List.mem_singleton.mp member
          have own : aliases.concrete (.ofTypeof name) = .ofTypeof name := given.2.concrete
          simp [part?, MemberTest.part?, own, hasTypeof_ofTypeof proper]
      | equals literal =>
          cases literal with
          | literal l =>
              refine left_of_kept plain given.1 fun m member => ?_
              cases List.mem_singleton.mp member
              exact if_pos (Ty.same_self _)
          | _ => cases plain
      | nullish =>
          refine left_of_kept plain given.1 fun m member => ?_
          change m ∈ [Ty.null, .undefined] at member
          rcases List.mem_pair.mp member with rfl | rfl <;> rfl
      | truthy => cases proper
      | is ty => exact left_is given.1 given.2

end Kept

section Twice

theorem narrow_is_self {ty : Ty} (wf : ty.WellFormed) (free : ty.NameFree) :
    (aliases.narrow ty (.is ty) true).value = ty := by
  by_cases isAny : ty.isAny = true
  · rw [(isAny_iff ty).mp isAny]
    exact narrow_any
  · rw [Bool.not_eq_true] at isAny
    rw [narrow_is_eq free isAny free, left_is wf free]
    split <;> rfl

/-- What a condition leaves of `any` stays as it is when the condition is applied to it. -/
theorem narrow_ofAny (plain : guard.isPlain = true)
    (normal : ∀ ty ∈ guard.types, ty.WellFormed ∧ ty.NameFree) :
    (aliases.narrow (guard.ofAny sense) guard sense).value = guard.ofAny sense := by
  by_cases isAny : (guard.ofAny sense).isAny = true
  · rw [(isAny_iff _).mp isAny, narrow_any]
    exact (isAny_iff _).mp isAny
  · rw [Bool.not_eq_true] at isAny
    by_cases refines : ∃ ty, guard = .is ty ∧ sense = true
    · obtain ⟨ty, rfl, rfl⟩ := refines
      exact narrow_is_self (normal ty (.head _)).1 (normal ty (.head _)).2
    · rw [narrow_eq_left (ofAny_normal sense normal).2 isAny (by grind)]
      exact left_ofAny plain normal isAny

variable (wf : source.WellFormed) (free : source.NameFree) (proper : source.isAny = false)
  (plain : guard.isPlain = true)

include wf plain

theorem left_nameFree (free : source.NameFree) : (aliases.left sense guard source).NameFree :=
  (settles plain).left_nameFree wf free

include proper

theorem isAny_left : (aliases.left sense guard source).isAny = false :=
  (settles plain).isAny_left wf proper

theorem left_left :
    aliases.left sense guard (aliases.left sense guard source) = aliases.left sense guard source :=
  (settles plain).left_left wf proper

include free

omit plain in
theorem narrow_is_narrow_is {ty : Ty} (wfTy : ty.WellFormed) (freeTy : ty.NameFree) :
    (aliases.narrow (aliases.narrow source (.is ty) true).value (.is ty) true).value =
      (aliases.narrow source (.is ty) true).value := by
  rw [narrow_is_eq free proper freeTy]
  split
  case isTrue => exact narrow_is_self wfTy freeTy
  case isFalse refused =>
    rw [narrow_is_eq (left_nameFree wf rfl free) (isAny_left wf proper rfl) freeTy,
      left_left wf proper rfl]
    refine if_neg fun again => refused ?_
    -- only `any` and `never` go where nothing is left, and they go where the source is expected
    rw [Bool.and_eq_true] at again ⊢
    refine ⟨again.1, ?_⟩
    have accepted := again.2
    rw [(isNever_iff _).mp again.1, compatible_never freeTy.concrete] at accepted
    exact compatible_of_vacuous freeTy.concrete accepted

theorem narrow_left (members : ∀ ty, guard = .is ty → sense = false) :
    (aliases.narrow (aliases.narrow source guard sense).value guard sense).value =
      (aliases.narrow source guard sense).value := by
  rw [narrow_eq_left free proper members,
    narrow_eq_left (left_nameFree wf plain free) (isAny_left wf proper plain) members,
    left_left wf proper plain]

end Twice

/-- Narrowing by a condition a second time changes nothing. -/
theorem narrow_narrow (aliases : AliasMap) (source : Ty) (wf : source.WellFormed)
    (free : source.NameFree) (guard : Guard) (plain : guard.isPlain = true)
    (normal : ∀ ty ∈ guard.types, ty.WellFormed ∧ ty.NameFree) (sense : Bool) :
    (aliases.narrow (aliases.narrow source guard sense).value guard sense).value =
      (aliases.narrow source guard sense).value := by
  by_cases isAny : source.isAny = true
  · rw [(isAny_iff source).mp isAny, narrow_any]
    exact narrow_ofAny plain normal
  · rw [Bool.not_eq_true] at isAny
    by_cases refines : ∃ ty, guard = .is ty ∧ sense = true
    · obtain ⟨ty, rfl, rfl⟩ := refines
      exact narrow_is_narrow_is wf free isAny (normal ty (.head _)).1 (normal ty (.head _)).2
    · exact narrow_left wf free isAny plain (by grind)

/-- What fails as a condition is left of a type by a second test as by the first, with `boolean` and
the keyword types cut down to literals. A guard for a record with more fields than any member takes
the place of a source none of whose members passes it, and then passes itself. -/
theorem entry_narrow_narrow :
    let aliases : AliasMap := {}
    let entry : Ty := .unionOf [.boolean, .string, .null,
      .object { properties := [⟨"x", .number, false⟩] }]
    let point : Ty := .object { properties := [⟨"x", .number, false⟩, ⟨"y", .number, false⟩] }
    (aliases.narrow (aliases.narrow entry .truthy false).value .truthy false).value =
        (aliases.narrow entry .truthy false).value ∧
      (aliases.narrow entry .truthy false).value.unionMembers.length = 3 ∧
      (aliases.narrow (aliases.narrow entry (.is point) true).value (.is point) true).value =
        (aliases.narrow entry (.is point) true).value ∧
      (aliases.narrow entry (.is point) true).value.same point = true := by
  intro aliases entry point
  have wf : entry.WellFormed := by decide
  have free : entry.NameFree := by decide
  have normal : ∀ ty ∈ (Guard.is point).types, ty.WellFormed ∧ ty.NameFree := by
    intro ty listed
    cases List.mem_singleton.mp listed
    decide
  refine ⟨?_, by decide +kernel, ?_, by decide +kernel⟩
  · exact aliases.narrow_narrow entry wf free .truthy rfl nofun false
  · exact aliases.narrow_narrow entry wf free (.is point) rfl normal true

end AliasMap

end StructuralTypes
