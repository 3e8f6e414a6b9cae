import StructuralTypes.Narrowing
import StructuralTypes.Proofs.Compatibility.Alternatives
import StructuralTypes.Proofs.NormalForm.Unions

set_option autoImplicit false

namespace StructuralTypes

namespace Ty

theorem anyHasTypeof_eq_any (name : String) (tys : List Ty) :
    anyHasTypeof name tys = tys.any (hasTypeof name) := by
  induction tys with
  | nil => rfl
  | cons ty tys ih => rw [anyHasTypeof, ih, List.any_cons]

/-- Equal types have the same `typeof` names. -/
theorem hasTypeof_same {a b : Ty} (wfA : a.WellFormed) (wfB : b.WellFormed) (equal : a.Same b)
    (name : String) : a.hasTypeof name = b.hasTypeof name := by
  induction a using childrenInduction generalizing b with
  | step a ih =>
      cases sameNode_of_same equal with
      | literal value => rw [hasTypeof, hasTypeof, Literal.base_same value]
      | @intersectionOf members others =>
          have set : SameSet members others := intersectionMembers_same wfA wfB equal
          rw [hasTypeof, hasTypeof, anyHasTypeof_eq_any, anyHasTypeof_eq_any, Bool.eq_iff_iff,
            List.any_eq_true, List.any_eq_true]
          have alike (x y : Ty) (listed : x ∈ members) (inside : y ∈ others) (same : x.Same y) :
              x.hasTypeof name = y.hasTypeof name :=
            ih x listed (wfA.intersectionMember listed) (wfB.intersectionMember inside) same
          constructor
          · rintro ⟨x, listed, named⟩
            obtain ⟨y, inside, same⟩ := set.forth x listed
            exact ⟨y, inside, by rw [← alike x y listed inside same, named]⟩
          · rintro ⟨y, inside, named⟩
            obtain ⟨x, listed, same⟩ := set.back y inside
            exact ⟨x, listed, by rw [alike x y listed inside same, named]⟩
      | _ => rfl

end Ty

theorem Literal.isFalsy_same {a b : Literal} (equal : a.same b = true) : a.isFalsy = b.isFalsy := by
  cases a with
  | text s =>
      cases b with
      | text t => rw [eq_of_beq equal]
      | _ => cases equal
  | number m =>
      cases b with
      | number n =>
          obtain ⟨m⟩ := m
          obtain ⟨n⟩ := n
          rcases (Number.same_iff_bits _ _).mp equal with rfl | ⟨first, second⟩ | ⟨first, second⟩
          · rfl
          · rw [isFalsy, isFalsy, Number.isFalsy, Number.isFalsy, first, second]
            rfl
          · rw [isFalsy, isFalsy, Number.isFalsy, Number.isFalsy, first, second, Bool.or_true,
              Bool.or_true]
      | _ => cases equal
  | boolean c =>
      cases b with
      | boolean d => rw [eq_of_beq equal]
      | _ => cases equal

/-- The conditions that are decided for each member of a union on its own. -/
inductive MemberTest where
  | typeofIs (name : String)
  | nullish
  | truthy

namespace MemberTest

def guard : MemberTest → Guard
  | typeofIs name => .typeofIs name
  | nullish => .nullish
  | truthy => .truthy

/-- What is left of a member where the test holds (`sense` is true) or fails. -/
def part? (aliases : AliasMap) (sense : Bool) : MemberTest → Ty → Option Ty
  | typeofIs name, m => if (aliases.concrete m).hasTypeof name == sense then some m else none
  | nullish, m => if m.isNullish == sense then some m else none
  | truthy, m => if sense then m.truthyPart? else m.falsyPart?

/-- What is left of the members of a type, taken as they are written. -/
def left (aliases : AliasMap) (sense : Bool) (test : MemberTest) (ty : Ty) : Ty :=
  .union (ty.unionMembers.filterMap (test.part? aliases sense))

variable {aliases : AliasMap} {sense : Bool} {test : MemberTest}

section Narrowing

theorem filterMap_ite (test : Ty → Bool) (tys : List Ty) :
    tys.filterMap (fun m => if test m then some m else none) = tys.filter test := by
  induction tys with
  | nil => rfl
  | cons m tys ih => by_cases passes : test m = true <;> simp [passes, ih]

theorem removeNullish_eq (ty : Ty) :
    ty.removeNullish = .union (ty.unionMembers.filter fun m => !m.isNullish) := by
  cases ty with
  | unionOf members => rfl
  | primitive kind => cases kind <;> rfl
  | literal l => cases l <;> rfl
  | _ => rfl

/-- Narrowing looks at a type through what is left of its members. -/
theorem narrow_eq_left {source : Ty} (own : aliases.concrete source = source)
    (proper : source.isAny = false) :
    (aliases.narrow source test.guard sense).value = test.left aliases sense source := by
  cases test with
  | typeofIs name =>
      have selected : source.unionMembers.filterMap ((typeofIs name).part? aliases sense) =
          source.unionMembers.filter fun m => (aliases.concrete m).hasTypeof name == sense :=
        filterMap_ite _ _
      rw [left, selected, guard, AliasMap.narrow, AliasMap.narrowTypeof, own, proper]
      simp only [AliasMap.filterMembers, own, Bool.false_eq_true, if_false, Limited.value_bind,
        Limited.value_filter, Limited.value_pure]
  | nullish =>
      have selected : source.unionMembers.filterMap (nullish.part? aliases sense) =
          source.unionMembers.filter fun m => m.isNullish == sense := filterMap_ite _ _
      rw [left, selected, guard]
      cases sense with
      | true =>
          show aliases.narrowToNullish source = _
          rw [AliasMap.narrowToNullish, own, proper]
          simp
      | false =>
          show (aliases.concrete source).removeNullish = _
          rw [own, removeNullish_eq]
          simp
  | truthy =>
      cases sense with
      | true =>
          show aliases.narrowTruthy source = _
          rw [AliasMap.narrowTruthy, own]
          rfl
      | false =>
          show aliases.narrowFalsy source = _
          rw [AliasMap.narrowFalsy, own, proper]
          rfl

end Narrowing

section Parts

variable {m part : Ty}

/-- What is left of a member is the member, or a literal of a keyword type. -/
theorem part?_cases (found : test.part? aliases sense m = some part) :
    part = m ∨ ∃ l : Literal, part = .literal l ∧ m = .primitive l.base := by
  cases test with
  | typeofIs name =>
      rw [part?] at found
      split at found <;> cases found
      exact Or.inl rfl
  | nullish =>
      rw [part?] at found
      split at found <;> cases found
      exact Or.inl rfl
  | truthy =>
      cases sense with
      | true =>
          have found : m.truthyPart? = some part := found
          unfold Ty.truthyPart? at found
          split at found
          · cases found
            exact Or.inr ⟨.boolean true, rfl, rfl⟩
          · split at found <;> cases found
            exact Or.inl rfl
          · split at found <;> cases found
            exact Or.inl rfl
          · cases found
            exact Or.inl rfl
      | false =>
          have found : m.falsyPart? = some part := found
          unfold Ty.falsyPart? at found
          split at found
          · cases found
            exact Or.inr ⟨.boolean false, rfl, rfl⟩
          · cases found
            exact Or.inr ⟨.text "", rfl, rfl⟩
          · cases found
            exact Or.inr ⟨.number .zero, rfl, rfl⟩
          · split at found <;> cases found
            exact Or.inl rfl
          · split at found <;> cases found
            exact Or.inl rfl
          · cases found

theorem part?_ref {name : String} (found : test.part? aliases sense (.ref name) = some part) :
    part = .ref name := by
  rcases part?_cases found with rfl | ⟨l, _, keyword⟩
  · rfl
  · cases keyword

theorem isNullish_eq_primitive? (ty : Ty) :
    ty.isNullish = ty.primitive?.any Primitive.isNullish := by
  cases ty <;> rfl

/-- A test leaves equal parts of equal members. -/
theorem part?_same (wf : aliases.WellFormed) {n : Ty} (wfM : m.WellFormed) (wfN : n.WellFormed)
    (equal : n.Same m) (found : test.part? aliases sense m = some part) :
    ∃ own, test.part? aliases sense n = some own ∧ own.Same part := by
  cases test with
  | typeofIs name =>
      have names : (aliases.concrete n).hasTypeof name = (aliases.concrete m).hasTypeof name :=
        Ty.hasTypeof_same (AliasMap.concrete_wellFormed wf wfN) (AliasMap.concrete_wellFormed wf wfM)
          (AliasMap.concrete_same wf wfN wfM equal) name
      rw [part?] at found ⊢
      rw [names]
      split at found <;> cases found
      next passes => exact ⟨n, if_pos passes, equal⟩
  | nullish =>
      have nullish : n.isNullish = m.isNullish := by
        rw [isNullish_eq_primitive?, isNullish_eq_primitive?, Ty.primitive?_same equal]
      rw [part?] at found ⊢
      rw [nullish]
      split at found <;> cases found
      next passes => exact ⟨n, if_pos passes, equal⟩
  | truthy =>
      have turned := Ty.same_symm wfN wfM equal
      cases m with
      | primitive kind =>
          cases Ty.eq_of_same_primitive turned
          exact ⟨part, found, Ty.same_self part⟩
      | literal l =>
          obtain ⟨k, rfl, same⟩ := Ty.exists_literal_of_same turned
          have falsy := Literal.isFalsy_same same
          cases sense with
          | true =>
              have found : (if l.isFalsy then none else some (Ty.literal l)) = some part := found
              rw [falsy] at found
              split at found <;> cases found
              next truthy => exact ⟨.literal k, if_neg truthy, equal⟩
          | false =>
              have found : (if l.isFalsy then some (Ty.literal l) else none) = some part := found
              rw [falsy] at found
              split at found <;> cases found
              next isFalsy => exact ⟨.literal k, if_pos isFalsy, equal⟩
      | _ =>
          cases sense with
          | false => cases found
          | true =>
              cases found
              cases n <;> first | exact ⟨_, rfl, equal⟩ | cases equal

theorem isNever_part (found : test.part? aliases sense m = some part)
    (inhabited : m.isNever = false) : part.isNever = false := by
  rcases part?_cases found with rfl | ⟨l, rfl, _⟩
  · exact inhabited
  · rfl

theorem isUnion_part (found : test.part? aliases sense m = some part) (single : m.isUnion = false) :
    part.isUnion = false := by
  rcases part?_cases found with rfl | ⟨l, rfl, _⟩
  · exact single
  · rfl

theorem wellFormed_part (found : test.part? aliases sense m = some part) (wfM : m.WellFormed) :
    part.WellFormed := by
  rcases part?_cases found with rfl | ⟨l, rfl, _⟩
  · exact wfM
  · exact .literal l

theorem offered_part (found : test.part? aliases sense m = some part) : Offered aliases part m := by
  rcases part?_cases found with rfl | ⟨l, rfl, rfl⟩
  · exact .refl part
  · exact .keyword l

/-- What is left of a union is made of what is left of its parts. -/
theorem left_union {tys : List Ty} (wf : ∀ ty ∈ tys, ty.WellFormed)
    (proper : (Ty.union tys).isAny = false) :
    test.left aliases sense (.union tys) =
      .union ((Ty.unionParts tys).filterMap (test.part? aliases sense)) := by
  rw [left, Ty.unionMembers_union wf proper]
  split
  case isFalse => rfl
  case isTrue empty =>
    rw [List.isEmpty_iff.mp empty]
    cases found : test.part? aliases sense .never with
    | none => simp [found]
    | some part =>
        rcases part?_cases found with rfl | ⟨l, _, keyword⟩
        · simp [found]
          rfl
        · cases l <;> cases keyword

end Parts

section Left

variable {tys : List Ty} {part : Ty} (wf : ∀ ty ∈ tys, ty.WellFormed)
  (proper : (Ty.union tys).isAny = false)

include wf

theorem unionParts_wellFormed {m : Ty} (member : m ∈ Ty.unionParts tys) : m.WellFormed := by
  obtain ⟨ty, listed, inside⟩ := List.mem_flatMap.mp (Ty.mem_of_mem_unionParts member)
  exact (wf ty listed).unionMembers inside

theorem parts_wellFormed :
    ∀ part ∈ (Ty.unionParts tys).filterMap (test.part? aliases sense), part.WellFormed := by
  intro part listed
  obtain ⟨m, member, found⟩ := List.mem_filterMap.mp listed
  exact wellFormed_part found (unionParts_wellFormed wf member)

theorem flatMap_parts : ((Ty.unionParts tys).filterMap (test.part? aliases sense)).flatMap
    Ty.unionMembers = (Ty.unionParts tys).filterMap (test.part? aliases sense) := by
  refine Ty.flatMap_unionMembers fun part listed => ?_
  obtain ⟨m, member, found⟩ := List.mem_filterMap.mp listed
  exact isUnion_part found (Ty.isUnion_of_mem_flatMap wf (Ty.mem_of_mem_unionParts member))

include proper

theorem left_wellFormed : (test.left aliases sense (.union tys)).WellFormed := by
  rw [left_union wf proper]
  exact Ty.union_wellFormed (parts_wellFormed wf)

theorem isAny_left : (test.left aliases sense (.union tys)).isAny = false := by
  rw [left_union wf proper, Ty.isAny_union_eq_false_iff, flatMap_parts wf]
  intro part listed
  obtain ⟨m, member, found⟩ := List.mem_filterMap.mp listed
  rcases part?_cases found with rfl | ⟨l, rfl, _⟩
  · exact Ty.isAny_union_eq_false_iff.mp proper part (Ty.mem_of_mem_unionParts member)
  · rfl

theorem mem_left (member : part ∈ (test.left aliases sense (.union tys)).unionMembers)
    (inhabited : part.isNever = false) :
    ∃ m ∈ Ty.unionParts tys, test.part? aliases sense m = some part := by
  have properLeft : (test.left aliases sense (.union tys)).isAny = false := isAny_left wf proper
  rw [left_union wf proper] at member properLeft
  rw [Ty.unionMembers_union (parts_wellFormed wf) properLeft] at member
  split at member
  case isTrue =>
    cases List.mem_singleton.mp member
    cases inhabited
  case isFalse =>
    have listed := Ty.mem_of_mem_unionParts member
    rw [flatMap_parts wf] at listed
    exact List.mem_filterMap.mp listed

theorem offered_left (wfAliases : aliases.WellFormed) {m : Ty} (member : m ∈ Ty.unionParts tys)
    (found : test.part? aliases sense m = some part) :
    Offered aliases part (test.left aliases sense (.union tys)) := by
  have properLeft : (test.left aliases sense (.union tys)).isAny = false := isAny_left wf proper
  have listed : part ∈ ((Ty.unionParts tys).filterMap (test.part? aliases sense)).flatMap
      Ty.unionMembers := by
    rw [flatMap_parts wf]
    exact List.mem_filterMap.mpr ⟨m, member, found⟩
  have inhabited := isNever_part found (Ty.mem_unionParts_iff.mp member).2.1
  rw [left_union wf proper] at properLeft ⊢
  exact offered_union wfAliases (parts_wellFormed wf) listed inhabited properLeft

end Left

end MemberTest

end StructuralTypes
