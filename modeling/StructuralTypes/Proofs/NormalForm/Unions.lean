import StructuralTypes.Proofs.Reordering.Aliases

set_option autoImplicit false

namespace StructuralTypes

namespace Ty

section Unions

variable {tys : List Ty} {m : Ty}

/-- The members that a union of types is left with. -/
def unionParts (tys : List Ty) : List Ty := keptMembers (distinct (tys.flatMap unionMembers))

/-- A literal is left out if its keyword type stands anywhere in the list. -/
theorem isAbsorbed_distinct (tys : List Ty) (m : Ty) :
    isAbsorbed ((distinct tys).filter fun ty => !ty.isNever) m = isAbsorbed tys m := by
  cases m with
  | literal l =>
      rw [isAbsorbed, isAbsorbed, Bool.eq_iff_iff, List.any_eq_true, List.any_eq_true]
      constructor
      · rintro ⟨base, listed, isBase⟩
        exact ⟨base, mem_of_mem_distinct (List.mem_of_mem_filter listed), isBase⟩
      · rintro ⟨base, listed, isBase⟩
        obtain ⟨first, inside, equal⟩ := (distinct_sameSet tys).back base listed
        rw [← primitive?_same equal] at isBase
        have inhabited : first.isNever = false := by
          rw [isNever_eq_primitive?, beq_iff_eq.mp isBase]
          cases l <;> rfl
        exact ⟨first, List.mem_filter.mpr ⟨inside, by rw [inhabited]; rfl⟩, isBase⟩
  | _ => rfl

theorem isAbsorbed_mono {as bs : List Ty}
    (keywords : ∀ kind, primitive kind ∈ as → primitive kind ∈ bs)
    (unabsorbed : isAbsorbed bs m = false) : isAbsorbed as m = false := by
  cases m with
  | literal l =>
      rw [isAbsorbed, List.any_eq_false] at unabsorbed ⊢
      intro ty listed isBase
      cases ty with
      | primitive kind => exact unabsorbed _ (keywords kind listed) isBase
      | _ => cases isBase
  | _ => rfl

theorem mem_unionParts_iff : m ∈ unionParts tys ↔ m ∈ distinct (tys.flatMap unionMembers) ∧
    m.isNever = false ∧ isAbsorbed (tys.flatMap unionMembers) m = false := by
  rw [unionParts, keptMembers]
  simp only [List.mem_filter, isAbsorbed_distinct, Bool.not_eq_true', and_assoc]

theorem mem_of_mem_unionParts (member : m ∈ unionParts tys) : m ∈ tys.flatMap unionMembers :=
  mem_of_mem_distinct (mem_unionParts_iff.mp member).1

/-- Names are never left out. -/
theorem ref_mem_unionParts {name : String} (listed : ref name ∈ tys.flatMap unionMembers) :
    ref name ∈ unionParts tys := by
  obtain ⟨first, inside, equal⟩ := (distinct_sameSet (tys.flatMap unionMembers)).back _ listed
  cases AliasMap.eq_ref_of_refName? (AliasMap.refName?_same equal)
  exact mem_unionParts_iff.mpr ⟨inside, rfl, rfl⟩

theorem union_eq_collapse (noAny : ∀ m ∈ tys.flatMap unionMembers, m.isAny = false) :
    union tys = collapse never unionOf (unionParts tys) := by
  rw [union_eq, if_neg, unionParts]
  rw [Bool.not_eq_true, List.any_eq_false]
  intro m listed
  rw [noAny m (mem_of_mem_distinct listed)]
  exact Bool.false_ne_true

theorem isAny_union_eq_false_iff :
    (union tys).isAny = false ↔ ∀ m ∈ tys.flatMap unionMembers, m.isAny = false := by
  constructor
  · intro proper m listed
    by_contra isAny
    rw [Bool.not_eq_false] at isAny
    have anyInside : (distinct (tys.flatMap unionMembers)).any Ty.isAny = true := by
      rw [(distinct_sameSet _).any_eq fun a b equal => isAny_same equal]
      exact List.any_eq_true.mpr ⟨m, listed, isAny⟩
    rw [union_eq, if_pos anyInside] at proper
    cases proper
  · intro noAny
    rw [union_eq_collapse noAny]
    match parts : unionParts tys with
    | [] => rfl
    | [only] =>
        have inside : only ∈ unionParts tys := by rw [parts]; exact .head _
        exact noAny only (mem_of_mem_unionParts inside)
    | _ :: _ :: _ => rfl

theorem isUnion_of_mem_flatMap (wf : ∀ ty ∈ tys, ty.WellFormed)
    (listed : m ∈ tys.flatMap unionMembers) : m.isUnion = false := by
  obtain ⟨ty, inside, member⟩ := List.mem_flatMap.mp listed
  exact (wf ty inside).unionMembers_flat member

/-- A union is made of its parts; without any it is `never`. -/
theorem unionMembers_union (wf : ∀ ty ∈ tys, ty.WellFormed) (proper : (union tys).isAny = false) :
    (union tys).unionMembers = if (unionParts tys).isEmpty then [never] else unionParts tys := by
  rw [union_eq_collapse (isAny_union_eq_false_iff.mp proper)]
  match parts : unionParts tys with
  | [] => rfl
  | [only] =>
      have inside : only ∈ unionParts tys := by rw [parts]; exact .head _
      exact unionMembers_eq_self (isUnion_of_mem_flatMap wf (mem_of_mem_unionParts inside))
  | _ :: _ :: _ => rfl

theorem mem_unionMembers_union (wf : ∀ ty ∈ tys, ty.WellFormed)
    (proper : (union tys).isAny = false) (member : m ∈ unionParts tys) :
    m ∈ (union tys).unionMembers := by
  rw [unionMembers_union wf proper, if_neg]
  · exact member
  · intro empty
    rw [List.isEmpty_iff.mp empty] at member
    cases member

theorem WellFormed.exists_unionMember {ty : Ty} (wf : ty.WellFormed) :
    ∃ m, m ∈ ty.unionMembers := by
  cases ty with
  | unionOf members =>
      have several : 0 < members.length := Nat.lt_of_lt_of_le Nat.zero_lt_two wf.node.several
      exact List.exists_mem_of_length_pos several
  | _ => exact ⟨_, List.mem_singleton_self _⟩

end Unions

section Selections

variable {keep : Ty → Bool} (respects : ∀ a b : Ty, Same a b → keep a = keep b)

include respects

theorem isAmong_filter {ty : Ty} (passes : keep ty = true) (kept : List Ty) :
    ty.isAmong (kept.filter keep) = ty.isAmong kept := by
  rw [Bool.eq_iff_iff, isAmong_iff, isAmong_iff]
  constructor
  · rintro ⟨other, listed, equal⟩
    exact ⟨other, List.mem_of_mem_filter listed, equal⟩
  · rintro ⟨other, listed, equal⟩
    exact ⟨other, List.mem_filter.mpr ⟨listed, by rw [respects other ty equal, passes]⟩, equal⟩

theorem distinctFrom_filter (kept tys : List Ty) :
    (distinctFrom kept tys).filter keep = distinctFrom (kept.filter keep) (tys.filter keep) := by
  induction tys generalizing kept with
  | nil => rfl
  | cons ty tys ih =>
      by_cases passes : keep ty = true
      · rw [List.filter_cons_of_pos passes, distinctFrom, distinctFrom,
          isAmong_filter respects passes]
        split
        · exact ih kept
        · rw [List.filter_cons_of_pos passes, ih, List.filter_append,
            List.filter_cons_of_pos passes, List.filter_nil]
      · rw [List.filter_cons_of_neg passes, distinctFrom]
        split
        · exact ih kept
        · rw [List.filter_cons_of_neg passes, ih, List.filter_append,
            List.filter_cons_of_neg passes, List.filter_nil, List.append_nil]

theorem distinct_filter (tys : List Ty) : (distinct tys).filter keep = distinct (tys.filter keep) :=
  distinctFrom_filter respects [] tys

/-- Members that are no keyword types may be taken out before or after the union is made. -/
theorem keptMembers_filter (keywords : ∀ kind, keep (primitive kind) = true) (tys : List Ty) :
    (keptMembers (distinct tys)).filter keep = keptMembers (distinct (tys.filter keep)) := by
  have absorbed (m : Ty) : isAbsorbed (tys.filter keep) m = isAbsorbed tys m := by
    cases m with
    | literal l =>
        rw [isAbsorbed, isAbsorbed, List.any_filter]
        congr 1
        funext ty
        cases ty with
        | primitive kind => simp [keywords]
        | _ => simp [primitive?]
    | _ => rfl
  simp only [keptMembers, isAbsorbed_distinct, absorbed]
  rw [← distinct_filter respects]
  simp only [List.filter_filter]
  congr 1
  funext ty
  grind

end Selections

section Places

variable {before after : List Ty} {ty m : Ty}

/-- The members of the types in a list with one type singled out. -/
theorem mem_flatMap_insert_iff : m ∈ (before ++ ty :: after).flatMap unionMembers ↔
    m ∈ (before ++ after).flatMap unionMembers ∨ m ∈ ty.unionMembers := by
  simp only [List.flatMap_append, List.flatMap_cons, List.mem_append]
  tauto

theorem forall_mem_insert {P : Ty → Prop} (others : ∀ m ∈ before ++ after, P m) (here : P ty) :
    ∀ m ∈ before ++ ty :: after, P m := by
  intro m listed
  simp only [List.mem_append, List.mem_cons] at others listed
  rcases listed with first | rfl | last
  · exact others m (Or.inl first)
  · exact here
  · exact others m (Or.inr last)

end Places

end Ty

end StructuralTypes
