import StructuralTypes.Proofs.NormalForm.Unions
import StructuralTypes.Proofs.Reordering.Merge

set_option autoImplicit false

namespace StructuralTypes

namespace Ty

section Unions

variable {as bs tys : List Ty} {b m : Ty}

/-- A union that has the given members has no use for another type: it has `any`, or the type is
`never`, or it has an equal one, or the type is a literal and it has the keyword type. -/
def UnionAbsorbs (as : List Ty) (b : Ty) : Prop :=
  (∃ a ∈ as, a.isAny = true) ∨ b.isNever = true ∨ (∃ a ∈ as, Same a b) ∨ isAbsorbed as b = true

namespace UnionAbsorbs

theorem of_mem (listed : b ∈ as) : UnionAbsorbs as b := .inr (.inr (.inl ⟨b, listed, same_self b⟩))

theorem mono (sub : as ⊆ bs) (absorbs : UnionAbsorbs as b) : UnionAbsorbs bs b := by
  rcases absorbs with ⟨a, listed, isAny⟩ | isNever | ⟨a, listed, equal⟩ | absorbed
  · exact .inl ⟨a, sub listed, isAny⟩
  · exact .inr (.inl isNever)
  · exact .inr (.inr (.inl ⟨a, sub listed, equal⟩))
  · cases b with
    | literal l =>
        obtain ⟨base, listed, isBase⟩ := List.any_eq_true.mp absorbed
        exact .inr (.inr (.inr (List.any_eq_true.mpr ⟨base, sub listed, isBase⟩)))
    | _ => cases absorbed

/-- `any` is absorbed by itself only. -/
theorem exists_isAny (absorbs : UnionAbsorbs as b) (isAny : b.isAny = true) :
    ∃ a ∈ as, a.isAny = true := by
  cases b with
  | primitive kind =>
      rcases absorbs with found | isNever | ⟨a, listed, equal⟩ | absorbed
      · exact found
      · cases kind <;> simp [Ty.isNever, Ty.isAny] at isNever isAny
      · exact ⟨a, listed, by rw [isAny_same equal, isAny]⟩
      · cases absorbed
  | _ => cases isAny

/-- So is the keyword type of a literal, unless `any` is there. -/
theorem isAbsorbed_of_base {l : Literal} (proper : ∀ a ∈ as, a.isAny = false)
    (absorbs : UnionAbsorbs as (primitive l.base)) : isAbsorbed as (literal l) = true := by
  rcases absorbs with ⟨a, listed, isAny⟩ | isNever | ⟨a, listed, equal⟩ | absorbed
  · rw [proper a listed] at isAny
    cases isAny
  · cases l <;> cases isNever
  · refine List.any_eq_true.mpr ⟨a, listed, ?_⟩
    rw [primitive?_same equal]
    exact beq_self_eq_true _
  · cases absorbed

theorem isAbsorbed_trans (proper : ∀ b ∈ bs, b.isAny = false)
    (each : ∀ a ∈ as, UnionAbsorbs bs a) (absorbed : isAbsorbed as m = true) :
    isAbsorbed bs m = true := by
  cases m with
  | literal l =>
      obtain ⟨base, listed, isBase⟩ := List.any_eq_true.mp absorbed
      cases base with
      | primitive kind =>
          obtain rfl : kind = l.base := by simpa [primitive?] using isBase
          exact isAbsorbed_of_base proper (each _ listed)
      | _ => cases isBase
  | _ => cases absorbed

/-- What absorbs a type absorbs its members. -/
theorem flatten (wf : ∀ a ∈ as, a.WellFormed) (wfB : b.WellFormed) (absorbs : UnionAbsorbs as b)
    (member : m ∈ b.unionMembers) : UnionAbsorbs (as.flatMap unionMembers) m := by
  have keyword {kind : Primitive} (listed : primitive kind ∈ as) :
      primitive kind ∈ as.flatMap unionMembers :=
    List.mem_flatMap.mpr ⟨_, listed, List.mem_singleton_self _⟩
  rcases absorbs with ⟨a, listed, isAny⟩ | isNever | ⟨a, listed, equal⟩ | absorbed
  · cases a with
    | primitive kind => exact .inl ⟨_, keyword listed, isAny⟩
    | _ => cases isAny
  · cases b with
    | primitive kind =>
        cases List.mem_singleton.mp member
        exact .inr (.inl isNever)
    | _ => cases isNever
  · obtain ⟨x, inside, same⟩ := (unionMembers_same (wf a listed) wfB equal).back m member
    exact .inr (.inr (.inl ⟨x, List.mem_flatMap.mpr ⟨a, listed, inside⟩, same⟩))
  · cases b with
    | literal l =>
        cases List.mem_singleton.mp member
        obtain ⟨base, listed, isBase⟩ := List.any_eq_true.mp absorbed
        cases base with
        | primitive kind =>
            exact .inr (.inr (.inr (List.any_eq_true.mpr ⟨_, keyword listed, isBase⟩)))
        | _ => cases isBase
    | _ => cases absorbed

end UnionAbsorbs

theorem without_any (none : ¬ ∃ m ∈ tys, m.isAny = true) : ∀ m ∈ tys, m.isAny = false :=
  fun m listed => Bool.eq_false_iff.mpr fun isAny => none ⟨m, listed, isAny⟩

theorem wellFormed_unionMembers (wf : ∀ ty ∈ tys, ty.WellFormed) :
    ∀ m ∈ tys.flatMap unionMembers, m.WellFormed := by
  intro m member
  obtain ⟨ty, listed, inside⟩ := List.mem_flatMap.mp member
  exact (wf ty listed).unionMembers inside

theorem union_of_any (found : ∃ m ∈ tys.flatMap unionMembers, m.isAny = true) :
    union tys = any := by
  rw [union_eq, if_pos]
  rw [(distinct_sameSet _).any_eq fun a b => isAny_same]
  exact List.any_eq_true.mpr found

/-- The parts of a union absorb whatever it is made from. -/
theorem unionParts_absorb (listed : m ∈ tys.flatMap unionMembers) :
    UnionAbsorbs (unionParts tys) m := by
  obtain ⟨first, kept, equal⟩ := (distinct_sameSet _).back m listed
  by_cases isNever : m.isNever = true
  · exact .inr (.inl isNever)
  rw [Bool.not_eq_true] at isNever
  by_cases absorbed : isAbsorbed (tys.flatMap unionMembers) m = true
  · cases m with
    | literal l =>
        obtain ⟨base, inside, isBase⟩ := List.any_eq_true.mp absorbed
        obtain ⟨own, keptBase, same⟩ := (distinct_sameSet _).back base inside
        rw [← primitive?_same same] at isBase
        refine .inr (.inr (.inr (List.any_eq_true.mpr ⟨own, mem_unionParts_iff.mpr ?_, isBase⟩)))
        cases own with
        | primitive kind =>
            obtain rfl : kind = l.base := by simpa [primitive?] using isBase
            exact ⟨keptBase, by cases l <;> rfl, rfl⟩
        | _ => cases isBase
    | _ => cases absorbed
  · rw [Bool.not_eq_true] at absorbed
    have part : first ∈ unionParts tys := by
      refine mem_unionParts_iff.mpr ⟨kept, ?_, ?_⟩
      · rw [isNever_same equal, isNever]
      · rw [isAbsorbed_same (.refl _) equal, absorbed]
    exact .inr (.inr (.inl ⟨first, part, equal⟩))

theorem unionParts_apart (wf : ∀ ty ∈ tys, ty.WellFormed) : (unionParts tys).Pairwise Apart :=
  ((distinct_apart (wellFormed_unionMembers wf)).sublist List.filter_sublist).sublist
    List.filter_sublist

/-- The members of a union are among the members of the types that it is made from, or `never`. -/
theorem unionMembers_union_absorbed (wf : ∀ ty ∈ tys, ty.WellFormed)
    (member : m ∈ (union tys).unionMembers) : UnionAbsorbs (tys.flatMap unionMembers) m := by
  by_cases found : ∃ n ∈ tys.flatMap unionMembers, n.isAny = true
  · exact .inl found
  · have proper : (union tys).isAny = false := isAny_union_eq_false_iff.mpr (without_any found)
    rw [unionMembers_union wf proper] at member
    split at member
    · cases List.mem_singleton.mp member
      exact .inr (.inl rfl)
    · exact .of_mem (mem_of_mem_unionParts member)

/-- The members of a union absorb whatever it is made from. -/
theorem unionMembers_union_absorb (wf : ∀ ty ∈ tys, ty.WellFormed)
    (listed : m ∈ tys.flatMap unionMembers) : UnionAbsorbs (union tys).unionMembers m := by
  by_cases found : ∃ n ∈ tys.flatMap unionMembers, n.isAny = true
  · rw [union_of_any found]
    exact .inl ⟨any, List.mem_singleton_self _, rfl⟩
  · have proper : (union tys).isAny = false := isAny_union_eq_false_iff.mpr (without_any found)
    exact (unionParts_absorb listed).mono fun n part => mem_unionMembers_union wf proper part

section Regrouping

variable (wfA : ∀ a ∈ as, a.WellFormed) (wfB : ∀ b ∈ bs, b.WellFormed)
  (forth : ∀ a ∈ as.flatMap unionMembers, UnionAbsorbs (bs.flatMap unionMembers) a)
  (back : ∀ b ∈ bs.flatMap unionMembers, UnionAbsorbs (as.flatMap unionMembers) b)

include wfA wfB forth back

/-- What one union keeps is kept by the other. -/
theorem exists_unionPart (proper : ∀ m ∈ as.flatMap unionMembers, m.isAny = false)
    (proper' : ∀ m ∈ bs.flatMap unionMembers, m.isAny = false) (part : m ∈ unionParts as) :
    ∃ n ∈ unionParts bs, Same m n := by
  obtain ⟨kept, inhabited, unabsorbed⟩ := mem_unionParts_iff.mp part
  have wfM := wellFormed_unionMembers wfA m (mem_of_mem_distinct kept)
  have lonely : isAbsorbed (bs.flatMap unionMembers) m = false := by
    rw [Bool.eq_false_iff]
    intro absorbed
    rw [UnionAbsorbs.isAbsorbed_trans proper back absorbed] at unabsorbed
    cases unabsorbed
  rcases forth m (mem_of_mem_distinct kept) with
    ⟨b, listed, isAny⟩ | isNever | ⟨b, listed, equal⟩ | absorbed
  · rw [proper' b listed] at isAny
    cases isAny
  · rw [inhabited] at isNever
    cases isNever
  · have wfB := wellFormed_unionMembers wfB
    obtain ⟨n, first, same⟩ := (distinct_sameSet _).back b listed
    have wfN := wfB n (mem_of_mem_distinct first)
    have chosen : Same n m := same_trans wfN (wfB b listed) wfM same equal
    refine ⟨n, mem_unionParts_iff.mpr ⟨first, ?_, ?_⟩, same_symm wfN wfM chosen⟩
    · rw [isNever_same chosen, inhabited]
    · rw [isAbsorbed_same (.refl _) chosen, lonely]
  · rw [lonely] at absorbed
    cases absorbed

/-- Unions are equal if each absorbs the members of the other. -/
theorem union_same_of_absorbs : Same (union as) (union bs) := by
  by_cases found : ∃ m ∈ as.flatMap unionMembers, m.isAny = true
  · obtain ⟨m, listed, isAny⟩ := found
    rw [union_of_any ⟨m, listed, isAny⟩, union_of_any ((forth m listed).exists_isAny isAny)]
    exact same_self any
  · have proper : ∀ m ∈ as.flatMap unionMembers, m.isAny = false := without_any found
    have proper' : ∀ m ∈ bs.flatMap unionMembers, m.isAny = false := by
      refine without_any fun ⟨m, listed, isAny⟩ => found ?_
      exact (back m listed).exists_isAny isAny
    have wfPartsA : ∀ m ∈ unionParts as, m.WellFormed :=
      fun m part => wellFormed_unionMembers wfA m (mem_of_mem_unionParts part)
    have wfPartsB : ∀ m ∈ unionParts bs, m.WellFormed :=
      fun m part => wellFormed_unionMembers wfB m (mem_of_mem_unionParts part)
    have parts : SameSet (unionParts as) (unionParts bs) := by
      refine ⟨fun m part => exists_unionPart wfA wfB forth back proper proper' part, ?_⟩
      intro n part
      obtain ⟨m, inside, equal⟩ := exists_unionPart wfB wfA back forth proper' proper part
      exact ⟨m, inside, same_symm (wfPartsB n part) (wfPartsA m inside) equal⟩
    have counts := parts.length_eq wfPartsA wfPartsB (unionParts_apart wfA) (unionParts_apart wfB)
    rw [union_eq_collapse proper, union_eq_collapse proper']
    exact collapse_same parts counts (same_of_sameNode (.unionOf counts parts.forth))

end Regrouping

theorem union_same_of_absorbs_each (wfA : ∀ a ∈ as, a.WellFormed) (wfB : ∀ b ∈ bs, b.WellFormed)
    (forth : ∀ a ∈ as, UnionAbsorbs bs a) (back : ∀ b ∈ bs, UnionAbsorbs as b) :
    Same (union as) (union bs) := by
  apply union_same_of_absorbs wfA wfB
  · intro m listed
    obtain ⟨a, inside, member⟩ := List.mem_flatMap.mp listed
    exact (forth a inside).flatten wfB (wfA a inside) member
  · intro m listed
    obtain ⟨b, inside, member⟩ := List.mem_flatMap.mp listed
    exact (back b inside).flatten wfA (wfB b inside) member

/-- It makes no difference to a union whether its members are put together in groups first. -/
theorem union_flatMap {α : Type} {xs : List α} {group : α → List Ty}
    (wf : ∀ x ∈ xs, ∀ ty ∈ group x, ty.WellFormed) :
    Same (union (xs.map fun x => union (group x))) (union (xs.flatMap group)) := by
  have wfGroups : ∀ ty ∈ xs.map fun x => union (group x), ty.WellFormed :=
    List.forall_mem_map.mpr fun x listed => union_wellFormed (wf x listed)
  have wfAll : ∀ ty ∈ xs.flatMap group, ty.WellFormed := by
    intro ty listed
    obtain ⟨x, inside, member⟩ := List.mem_flatMap.mp listed
    exact wf x inside ty member
  apply union_same_of_absorbs wfGroups wfAll
  · intro m listed
    obtain ⟨ty, inside, member⟩ := List.mem_flatMap.mp listed
    obtain ⟨x, here, rfl⟩ := List.mem_map.mp inside
    refine (unionMembers_union_absorbed (wf x here) member).mono fun n flat => ?_
    obtain ⟨ty, own, unfolded⟩ := List.mem_flatMap.mp flat
    exact List.mem_flatMap.mpr ⟨ty, List.mem_flatMap.mpr ⟨x, here, own⟩, unfolded⟩
  · intro m listed
    obtain ⟨ty, inside, member⟩ := List.mem_flatMap.mp listed
    obtain ⟨x, here, own⟩ := List.mem_flatMap.mp inside
    have flat : m ∈ (group x).flatMap unionMembers := List.mem_flatMap.mpr ⟨ty, own, member⟩
    refine (unionMembers_union_absorb (wf x here) flat).mono fun n kept => ?_
    exact List.mem_flatMap.mpr ⟨_, List.mem_map_of_mem here, kept⟩

end Unions

section Intersections

variable {as bs tys : List Ty} {b m : Ty}

/-- An intersection that has the given members has no use for another type: it has `never`, or it has
`any` and the type is not `never`, or it has an equal one. -/
def IntersectionAbsorbs (as : List Ty) (b : Ty) : Prop :=
  as.any isNever = true ∨ (as.any isAny = true ∧ b.isNever = false) ∨ ∃ a ∈ as, Same a b

namespace IntersectionAbsorbs

theorem mono (sub : as ⊆ bs) (absorbs : IntersectionAbsorbs as b) : IntersectionAbsorbs bs b := by
  have carry {test : Ty → Bool} (found : as.any test = true) : bs.any test = true := by
    obtain ⟨a, listed, passes⟩ := List.any_eq_true.mp found
    exact List.any_eq_true.mpr ⟨a, sub listed, passes⟩
  rcases absorbs with isNever | ⟨isAny, inhabited⟩ | ⟨a, listed, equal⟩
  · exact .inl (carry isNever)
  · exact .inr (.inl ⟨carry isAny, inhabited⟩)
  · exact .inr (.inr ⟨a, sub listed, equal⟩)

theorem any_isNever (each : ∀ b ∈ bs, IntersectionAbsorbs as b) (found : bs.any isNever = true) :
    as.any isNever = true := by
  obtain ⟨b, listed, isNever⟩ := List.any_eq_true.mp found
  rcases each b listed with here | ⟨isAny, inhabited⟩ | ⟨a, inside, equal⟩
  · exact here
  · rw [isNever] at inhabited
    cases inhabited
  · exact List.any_eq_true.mpr ⟨a, inside, by rw [isNever_same equal, isNever]⟩

theorem any_isAny (inhabited : as.any isNever = false)
    (each : ∀ b ∈ bs, IntersectionAbsorbs as b) (found : bs.any isAny = true) :
    as.any isAny = true := by
  obtain ⟨b, listed, isAny⟩ := List.any_eq_true.mp found
  rcases each b listed with isNever | ⟨here, _⟩ | ⟨a, inside, equal⟩
  · rw [inhabited] at isNever
    cases isNever
  · exact here
  · exact List.any_eq_true.mpr ⟨a, inside, by rw [isAny_same equal, isAny]⟩

theorem exists_same (inhabited : as.any isNever = false) (proper : as.any isAny = false)
    (absorbs : IntersectionAbsorbs as b) : ∃ a ∈ as, Same a b := by
  rcases absorbs with isNever | ⟨isAny, _⟩ | found
  · rw [inhabited] at isNever
    cases isNever
  · rw [proper] at isAny
    cases isAny
  · exact found

/-- What absorbs a type absorbs its members. -/
theorem flatten (wf : ∀ a ∈ as, a.WellFormed) (wfB : b.WellFormed)
    (absorbs : IntersectionAbsorbs as b) (member : m ∈ b.intersectionMembers) :
    IntersectionAbsorbs (as.flatMap intersectionMembers) m := by
  have carry {kind : Primitive} (listed : primitive kind ∈ as) :
      primitive kind ∈ as.flatMap intersectionMembers :=
    List.mem_flatMap.mpr ⟨_, listed, List.mem_singleton_self _⟩
  rcases absorbs with isNever | ⟨isAny, inhabited⟩ | ⟨a, listed, equal⟩
  · obtain ⟨a, listed, isNever⟩ := List.any_eq_true.mp isNever
    cases a with
    | primitive kind => exact .inl (List.any_eq_true.mpr ⟨_, carry listed, isNever⟩)
    | _ => cases isNever
  · obtain ⟨a, listed, isAny⟩ := List.any_eq_true.mp isAny
    have kept : m.isNever = false := by
      cases b with
      | intersectionOf members => exact (wfB.node.proper m member).2
      | _ =>
          cases List.mem_singleton.mp member
          exact inhabited
    cases a with
    | primitive kind => exact .inr (.inl ⟨List.any_eq_true.mpr ⟨_, carry listed, isAny⟩, kept⟩)
    | _ => cases isAny
  · obtain ⟨x, inside, same⟩ := (intersectionMembers_same (wf a listed) wfB equal).back m member
    exact .inr (.inr ⟨x, List.mem_flatMap.mpr ⟨a, listed, inside⟩, same⟩)

end IntersectionAbsorbs

/-- Intersections are equal if each absorbs the members of the other. -/
theorem intersection_same_of_absorbs (wfA : ∀ a ∈ as, a.WellFormed) (wfB : ∀ b ∈ bs, b.WellFormed)
    (forth : ∀ a ∈ as.flatMap intersectionMembers,
      IntersectionAbsorbs (bs.flatMap intersectionMembers) a)
    (back : ∀ b ∈ bs.flatMap intersectionMembers,
      IntersectionAbsorbs (as.flatMap intersectionMembers) b) :
    Same (intersection as) (intersection bs) := by
  have nevers : (as.flatMap intersectionMembers).any isNever =
      (bs.flatMap intersectionMembers).any isNever :=
    Bool.eq_iff_iff.mpr ⟨IntersectionAbsorbs.any_isNever forth, IntersectionAbsorbs.any_isNever back⟩
  cases never : (bs.flatMap intersectionMembers).any isNever with
  | true => exact intersection_same_of_never (nevers.trans never) never
  | false =>
      have inhabited := nevers.trans never
      have anys : (as.flatMap intersectionMembers).any isAny =
          (bs.flatMap intersectionMembers).any isAny :=
        Bool.eq_iff_iff.mpr ⟨IntersectionAbsorbs.any_isAny never forth,
          IntersectionAbsorbs.any_isAny inhabited back⟩
      cases any : (bs.flatMap intersectionMembers).any isAny with
      | true => exact intersection_same_of_any inhabited never (anys.trans any) any
      | false =>
          have wfFlatA := wellFormed_intersectionMembers wfA
          have wfFlatB := wellFormed_intersectionMembers wfB
          refine intersection_same_of_members wfA wfB ⟨fun a listed => ?_, fun b listed => ?_⟩
          · obtain ⟨b, inside, equal⟩ := (forth a listed).exists_same never any
            exact ⟨b, inside, same_symm (wfFlatB b inside) (wfFlatA a listed) equal⟩
          · exact (back b listed).exists_same inhabited (anys.trans any)

theorem intersection_same_of_absorbs_each (wfA : ∀ a ∈ as, a.WellFormed)
    (wfB : ∀ b ∈ bs, b.WellFormed) (forth : ∀ a ∈ as, IntersectionAbsorbs bs a)
    (back : ∀ b ∈ bs, IntersectionAbsorbs as b) : Same (intersection as) (intersection bs) := by
  apply intersection_same_of_absorbs wfA wfB
  · intro m listed
    obtain ⟨a, inside, member⟩ := List.mem_flatMap.mp listed
    exact (forth a inside).flatten wfB (wfA a inside) member
  · intro m listed
    obtain ⟨b, inside, member⟩ := List.mem_flatMap.mp listed
    exact (back b inside).flatten wfA (wfB b inside) member

/-- An intersection and the types that it is made from absorb the members of each other. -/
theorem intersectionMembers_intersection_absorb (wf : ∀ ty ∈ tys, ty.WellFormed) (some : tys ≠ []) :
    (∀ m ∈ (intersection tys).intersectionMembers,
      IntersectionAbsorbs (tys.flatMap intersectionMembers) m) ∧
    ∀ m ∈ tys.flatMap intersectionMembers,
      IntersectionAbsorbs (intersection tys).intersectionMembers m := by
  cases never : (tys.flatMap intersectionMembers).any isNever with
  | true =>
      rw [intersection_of_never never]
      exact ⟨fun m _ => .inl never, fun m _ => .inl rfl⟩
  | false =>
      cases any : (tys.flatMap intersectionMembers).any isAny with
      | true =>
          rw [intersection_of_any never any]
          refine ⟨fun m member => ?_, fun m listed => ?_⟩
          · cases List.mem_singleton.mp member
            exact .inr (.inl ⟨any, rfl⟩)
          · exact .inr (.inl ⟨rfl, by simpa using List.any_eq_false.mp never m listed⟩)
      | false =>
          rw [intersectionMembers_intersection wf some never any]
          refine ⟨fun m member => ?_, fun m listed => ?_⟩
          · exact .inr (.inr ⟨m, mem_of_mem_distinct member, same_self m⟩)
          · exact .inr (.inr ((distinct_sameSet _).back m listed))

/-- It makes no difference to an intersection whether its members are put together in groups first,
as long as there is something in every group. -/
theorem intersection_flatMap {α : Type} {xs : List α} {group : α → List Ty}
    (wf : ∀ x ∈ xs, ∀ ty ∈ group x, ty.WellFormed) (some : ∀ x ∈ xs, group x ≠ []) :
    Same (intersection (xs.map fun x => intersection (group x)))
      (intersection (xs.flatMap group)) := by
  have wfGroups : ∀ ty ∈ xs.map fun x => intersection (group x), ty.WellFormed :=
    List.forall_mem_map.mpr fun x listed => intersection_wellFormed (wf x listed)
  have wfAll : ∀ ty ∈ xs.flatMap group, ty.WellFormed := by
    intro ty listed
    obtain ⟨x, inside, member⟩ := List.mem_flatMap.mp listed
    exact wf x inside ty member
  apply intersection_same_of_absorbs wfGroups wfAll
  · intro m listed
    obtain ⟨ty, inside, member⟩ := List.mem_flatMap.mp listed
    obtain ⟨x, here, rfl⟩ := List.mem_map.mp inside
    refine ((intersectionMembers_intersection_absorb (wf x here) (some x here)).1 m member).mono ?_
    intro n flat
    obtain ⟨ty, own, unfolded⟩ := List.mem_flatMap.mp flat
    exact List.mem_flatMap.mpr ⟨ty, List.mem_flatMap.mpr ⟨x, here, own⟩, unfolded⟩
  · intro m listed
    obtain ⟨ty, inside, member⟩ := List.mem_flatMap.mp listed
    obtain ⟨x, here, own⟩ := List.mem_flatMap.mp inside
    have flat : m ∈ (group x).flatMap intersectionMembers := List.mem_flatMap.mpr ⟨ty, own, member⟩
    refine ((intersectionMembers_intersection_absorb (wf x here) (some x here)).2 m flat).mono ?_
    intro n kept
    exact List.mem_flatMap.mpr ⟨_, List.mem_map_of_mem here, kept⟩

/-- An intersection of something is `any` only if one of its members is. -/
theorem isAny_intersection_eq_false (wf : ∀ ty ∈ tys, ty.WellFormed) (some : tys ≠ [])
    (proper : (tys.flatMap intersectionMembers).any isAny = false) :
    (intersection tys).isAny = false := by
  cases never : (tys.flatMap intersectionMembers).any isNever with
  | true =>
      rw [intersection_of_never never]
      rfl
  | false =>
      rw [Bool.eq_false_iff]
      intro isAny
      have alone : (intersection tys).intersectionMembers = [intersection tys] := by
        refine intersectionMembers_eq_self ?_
        cases whole : intersection tys with
        | intersectionOf members =>
            rw [whole] at isAny
            cases isAny
        | _ => rfl
      obtain ⟨m, listed, equal⟩ := ((intersectionMembers_intersection_absorb wf some).1
        (intersection tys) (by rw [alone]; exact .head _)).exists_same never proper
      have found : (tys.flatMap intersectionMembers).any Ty.isAny = true :=
        List.any_eq_true.mpr ⟨m, listed, by rw [isAny_same equal, isAny]⟩
      rw [proper] at found
      cases found

end Intersections

end Ty

end StructuralTypes
