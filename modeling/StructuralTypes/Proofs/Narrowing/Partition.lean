import StructuralTypes.Proofs.Compatibility.Immediate
import StructuralTypes.Proofs.Narrowing.Members
import StructuralTypes.Proofs.Ty.Composition

/-!
The two halves are found by different tests, made one after the other and put in normal form each on
its own. But the tests are opposites of each other on every member, and members that are picked from a
type in normal form are in normal form already, so no member is lost or met twice.
-/

set_option autoImplicit false

namespace StructuralTypes

namespace Ty

section Members

variable {ty : Ty} {tys : List Ty}

/-- The members of a type, where `never` counts as none. -/
def inhabitedMembers (ty : Ty) : List Ty := ty.unionMembers.filter fun m => !m.isNever

theorem WellFormed.inhabitedMembers_eq (wf : ty.WellFormed) (inhabited : ty.isNever = false) :
    ty.inhabitedMembers = ty.unionMembers := by
  refine List.filter_eq_self.mpr fun m member => ?_
  simp [wf.unionMembers_inhabited inhabited member]

theorem WellFormed.unionMembers_apart (wf : ty.WellFormed) : ty.unionMembers.Pairwise Apart := by
  cases ty with
  | unionOf members => exact wf.node.apart
  | _ => exact List.pairwise_singleton _ _

theorem WellFormed.unionMembers_unabsorbed (wf : ty.WellFormed) {m : Ty}
    (member : m ∈ ty.unionMembers) : isAbsorbed ty.unionMembers m = false := by
  cases m with
  | literal l =>
      rw [isAbsorbed, List.any_eq_false]
      intro n other isBase
      cases ty with
      | unionOf members => exact wf.node.unabsorbed _ member l rfl n other (by simpa using isBase)
      | literal k =>
          cases List.mem_singleton.mp other
          cases isBase
      | _ => cases List.mem_singleton.mp member
  | _ => rfl

/-- A type is the union of its members. -/
theorem union_unionMembers (wf : ty.WellFormed) : union ty.unionMembers = ty := by
  cases ty with
  | unionOf members => exact union_of_normal wf.node
  | _ => exact union_singleton wf

/-- Members that are picked from a type are in normal form already. -/
theorem unionParts_of_sublist (wf : ty.WellFormed) (picked : tys.Sublist ty.unionMembers) :
    unionParts tys = tys.filter fun m => !m.isNever := by
  have flat : tys.flatMap unionMembers = tys :=
    flatMap_unionMembers fun m listed => wf.unionMembers_flat (picked.subset listed)
  have different : distinct tys = tys := distinct_of_apart (wf.unionMembers_apart.sublist picked)
  have unabsorbed (m : Ty) (listed : m ∈ tys) : isAbsorbed tys m = false :=
    isAbsorbed_mono (fun _ inside => picked.subset inside)
      (wf.unionMembers_unabsorbed (picked.subset listed))
  have absorbed (m : Ty) : isAbsorbed (tys.filter fun n => !n.isNever) m = isAbsorbed tys m := by
    have same := isAbsorbed_distinct tys m
    rwa [different] at same
  rw [unionParts, flat, different, keptMembers]
  refine List.filter_eq_self.mpr fun m kept => ?_
  rw [absorbed, unabsorbed m (List.mem_of_mem_filter kept)]
  rfl

theorem inhabitedMembers_union (wf : ∀ ty ∈ tys, ty.WellFormed)
    (proper : (union tys).isAny = false) : (union tys).inhabitedMembers = unionParts tys := by
  rw [inhabitedMembers, unionMembers_union wf proper]
  split
  case isTrue empty =>
    rw [List.isEmpty_iff.mp empty]
    rfl
  case isFalse =>
    refine List.filter_eq_self.mpr fun m part => ?_
    rw [(mem_unionParts_iff.mp part).2.1]
    rfl

/-- The union of members that are picked from a type has these members. -/
theorem inhabitedMembers_filter (wf : ty.WellFormed) (proper : ty.isAny = false)
    (keep : Ty → Bool) :
    (union (ty.unionMembers.filter keep)).inhabitedMembers = ty.inhabitedMembers.filter keep := by
  have wfPicked (m : Ty) (listed : m ∈ ty.unionMembers.filter keep) : m.WellFormed :=
    wf.unionMembers (List.mem_of_mem_filter listed)
  have properUnion : (union (ty.unionMembers.filter keep)).isAny = false := by
    rw [isAny_union_eq_false_iff]
    intro m inside
    rw [flatMap_unionMembers fun n listed => wf.unionMembers_flat (List.mem_of_mem_filter listed)]
      at inside
    exact wf.unionMembers_proper proper (List.mem_of_mem_filter inside)
  rw [inhabitedMembers_union wfPicked properUnion, unionParts_of_sublist wf List.filter_sublist,
    inhabitedMembers, List.filter_filter, List.filter_filter]
  simp only [Bool.and_comm]

end Members

/-- Two types split a third: no member of the one equals a member of the other, together they have
exactly the members of the whole, and their union is the whole. -/
structure Splits (whole first second : Ty) : Prop where
  apart : ∀ a ∈ first.inhabitedMembers, ∀ b ∈ second.inhabitedMembers, Apart a b
  members : ∀ m, m ∈ whole.inhabitedMembers ↔
    m ∈ first.inhabitedMembers ∨ m ∈ second.inhabitedMembers
  joined : Same (union [first, second]) whole

/-- The members that pass a test and those that fail it split a type. -/
theorem splits_filter {ty : Ty} (wf : ty.WellFormed) (proper : ty.isAny = false)
    (test : Ty → Bool) :
    Splits ty (union (ty.unionMembers.filter fun m => test m == true))
      (union (ty.unionMembers.filter fun m => test m == false)) where
  apart := by
    rw [inhabitedMembers_filter wf proper, inhabitedMembers_filter wf proper]
    intro a first b second
    obtain ⟨memberA, passes⟩ := List.mem_filter.mp first
    obtain ⟨memberB, fails⟩ := List.mem_filter.mp second
    have different : a ≠ b := by
      rintro rfl
      simp_all
    exact wf.unionMembers_apart.forall (List.mem_of_mem_filter memberA)
      (List.mem_of_mem_filter memberB) different
  members := by
    intro m
    rw [inhabitedMembers_filter wf proper, inhabitedMembers_filter wf proper, List.mem_filter,
      List.mem_filter]
    cases test m <;> simp
  joined := by
    let half (sense : Bool) : List Ty := ty.unionMembers.filter fun m => test m == sense
    have wfHalf (sense : Bool) (m : Ty) (listed : m ∈ half sense) : m.WellFormed :=
      wf.unionMembers (List.mem_of_mem_filter listed)
    have wfBoth : ∀ m ∈ half true ++ half false, m.WellFormed :=
      List.forall_mem_append.mpr ⟨wfHalf true, wfHalf false⟩
    have wfMembers : ∀ m ∈ ty.unionMembers, m.WellFormed := fun m => wf.unionMembers
    have set : SameSet (half true ++ half false) ty.unionMembers := by
      refine .of_mem_iff fun m => ?_
      simp only [half, List.mem_append, List.mem_filter]
      cases test m <;> simp
    have grouped : Same (union [union (half true), union (half false)])
        (union (half true ++ half false)) := by
      have regrouped : Same (union ([true, false].map fun sense => union (half sense)))
          (union ([true, false].flatMap half)) := union_flatMap fun sense _ => wfHalf sense
      simpa using regrouped
    have whole := union_same wfBoth wfMembers set
    rw [union_unionMembers wf] at whole
    have wfHalves : (union [union (half true), union (half false)]).WellFormed :=
      union_pair_wellFormed (union_wellFormed (wfHalf true)) (union_wellFormed (wfHalf false))
    exact same_trans wfHalves (union_wellFormed wfBoth) wf grouped whole

end Ty

namespace AliasMap

variable {aliases : AliasMap} {source target : Ty}

section Halves

variable (wf : aliases.WellFormed) (wfSource : source.WellFormed)
  (proper : (aliases.concrete source).isAny = false)

include wf wfSource proper

/-- A member that equals the target is compatible with it, so the two tests that are made on a
member to pick it come down to one. -/
theorem narrowTo_eq (wfTarget : target.WellFormed) :
    (aliases.narrowTo source target).value = .union ((aliases.concrete source).unionMembers.filter
      fun m => (aliases.narrowing.compatible m target).value == true) := by
  have wfConcrete := concrete_wellFormed wf wfSource
  rw [narrowTo, proper, if_neg Bool.false_ne_true, Limited.value_bind, Limited.value_filter,
    Limited.value_pure]
  congr 1
  refine List.filter_congr fun m member => ?_
  by_cases same : m.same target = true
  · have equal := concrete_same wf (wfConcrete.unionMembers member) wfTarget same
    rw [if_pos same, aliases.narrowing.compatible_of_equal equal]
    rfl
  · rw [if_neg same, beq_true]

omit wf wfSource in
theorem narrowExcluding_eq (listed : target.isAmong (aliases.concrete source).unionMembers = true) :
    (aliases.narrowExcluding source target).value =
      .union ((aliases.concrete source).unionMembers.filter
        fun m => (aliases.narrowing.compatible m target).value == false) := by
  rw [narrowExcluding, proper, listed]
  simp only [Bool.not_true, Bool.or_self, Bool.false_eq_true, if_false, Limited.value_bind,
    Limited.value_filter, Limited.value_pure, beq_false]

end Halves

section Tests

variable (own : aliases.concrete (aliases.concrete source) = aliases.concrete source)
  (proper : (aliases.concrete source).isAny = false)

include own

/-- The tests that are made on each member see the source only once it has been made concrete. -/
theorem narrow_concrete (test : MemberTest) (sense : Bool) :
    aliases.narrow source test.guard sense =
      aliases.narrow (aliases.concrete source) test.guard sense := by
  cases test <;> cases sense <;>
    simp only [MemberTest.guard, narrow, narrowTypeof, narrowToNullish, narrowTruthy, narrowFalsy, own]

include proper

/-- A test that keeps or drops members as a whole splits its source. -/
theorem splits_narrow (wf : (aliases.concrete source).WellFormed) (test : MemberTest)
    (holds : Ty → Bool)
    (decided : ∀ sense m, test.part? aliases sense m = if holds m == sense then some m else none) :
    Ty.Splits (aliases.concrete source) (aliases.narrow source test.guard true).value
      (aliases.narrow source test.guard false).value := by
  have half (sense : Bool) : (aliases.narrow source test.guard sense).value =
      .union ((aliases.concrete source).unionMembers.filter fun m => holds m == sense) := by
    rw [narrow_concrete own, MemberTest.narrow_eq_left own proper, MemberTest.left,
      ← MemberTest.filterMap_ite]
    congr 2
    funext m
    exact decided sense m
  rw [half true, half false]
  exact Ty.splits_filter wf proper holds

end Tests

/-- A source that stands for neither `any`, a name nor a `keyof` is split by each of its members, by
each `typeof` name and by the comparison with `null`. -/
theorem narrowing_splits (aliases : AliasMap) (wf : aliases.WellFormed) (source : Ty)
    (wfSource : source.WellFormed) (proper : (aliases.concrete source).isAny = false)
    (unnamed : (aliases.concrete source).refName? = none)
    (evaluated : (aliases.concrete source).isKeyof = false) :
    let whole := aliases.concrete source
    (∀ m ∈ whole.unionMembers, ∀ target : Ty, m.Same target →
      Ty.Splits whole (aliases.narrowTo source target).value
        (aliases.narrowExcluding source target).value) ∧
    (∀ name, Ty.Splits whole (aliases.narrow source (.typeofIs name) true).value
      (aliases.narrow source (.typeofIs name) false).value) ∧
    Ty.Splits whole (aliases.narrow source .nullish true).value
      (aliases.narrow source .nullish false).value := by
  intro whole
  have wfWhole : whole.WellFormed := concrete_wellFormed wf wfSource
  have own : aliases.concrete whole = whole := by
    refine concrete_eq_self unnamed fun subject found => ?_
    rw [show aliases.concrete source = .keyof subject from found] at evaluated
    cases evaluated
  refine ⟨?_, ?_, ?_⟩
  · intro m member target same
    have wfTarget : target.WellFormed := (wfWhole.unionMembers member).of_same same
    have listed : target.isAmong whole.unionMembers = true :=
      (Ty.isAmong_iff _ _).mpr ⟨m, member, same⟩
    rw [narrowTo_eq wf wfSource proper wfTarget, narrowExcluding_eq proper listed]
    exact Ty.splits_filter wfWhole proper _
  · intro name
    exact splits_narrow own proper wfWhole (.typeofIs name) _ fun _ _ => rfl
  · exact splits_narrow own proper wfWhole .nullish _ fun _ _ => rfl

/-- The content of a cell: an identifier, which is a union of its own, a point, a mark or nothing. -/
def cells : AliasMap where
  definitions :=
    [⟨"Id", [], .unionOf [.string, .number]⟩,
      ⟨"Cell", [], .unionOf [.ref "Id",
        .object { properties := [⟨"x", .number, false⟩, ⟨"y", .number, false⟩] },
        .literal (.text "mark"), .null]⟩]

/-- A cell is split by the type of its points with the coordinates the other way round, and by the
`typeof` name of text, which the name for an identifier does not have. -/
theorem cell_splits :
    let cell : Ty := .ref "Cell"
    let point : Ty := .object { properties := [⟨"y", .number, false⟩, ⟨"x", .number, false⟩] }
    Ty.Splits (cells.concrete cell) (cells.narrowTo cell point).value
        (cells.narrowExcluding cell point).value ∧
      Ty.Splits (cells.concrete cell) (cells.narrow cell (.typeofIs "string") true).value
        (cells.narrow cell (.typeofIs "string") false).value ∧
      (cells.concrete cell).inhabitedMembers.length = 4 := by
  intro cell point
  have split := cells.narrowing_splits (by decide) cell (by decide) (by decide) (by decide) (by decide)
  refine ⟨split.1 _ (.tail _ (.head _)) point (by decide), split.2.1 "string", by decide⟩

end AliasMap

end StructuralTypes
