import StructuralTypes.Proofs.Ty.Regrouping

set_option autoImplicit false

namespace StructuralTypes.Ty

section Distinct

variable {kept known as bs cs tys : List Ty}

theorem distinctFrom_append (kept as bs : List Ty) : distinctFrom kept (as ++ bs) =
    distinctFrom kept as ++ distinctFrom (kept ++ distinctFrom kept as) bs := by
  induction as generalizing kept with
  | nil => rw [List.nil_append, distinctFrom, List.append_nil, List.nil_append]
  | cons a as ih =>
      rw [List.cons_append, distinctFrom, distinctFrom]
      split
      · exact ih kept
      · rw [ih, List.append_assoc]
        rfl

/-- What is left out because of an earlier type is left out anyway, if that type equals one that is
kept already. -/
theorem distinctFrom_distinctFrom (wfKept : ∀ ty ∈ kept, ty.WellFormed)
    (wfKnown : ∀ ty ∈ known, ty.WellFormed) (wf : ∀ ty ∈ tys, ty.WellFormed)
    (inside : ∀ ty ∈ known, ty.isAmong kept = true) :
    distinctFrom kept (distinctFrom known tys) = distinctFrom kept tys := by
  -- A type that is met joins both lists or is in the first one already, so `inside` carries on.
  induction tys generalizing kept known with
  | nil => rfl
  | cons ty tys ih =>
      obtain ⟨wfTy, wfRest⟩ := List.forall_mem_cons.mp wf
      have wfMore {list : List Ty} (wfList : ∀ t ∈ list, t.WellFormed) :
          ∀ t ∈ list ++ [ty], t.WellFormed :=
        List.forall_mem_append.mpr ⟨wfList, List.forall_mem_singleton.mpr wfTy⟩
      rw [distinctFrom, distinctFrom]
      by_cases old : ty.isAmong known = true
      · obtain ⟨k, listed, equal⟩ := (isAmong_iff _ _).mp old
        obtain ⟨first, present, same⟩ := (isAmong_iff _ _).mp (inside k listed)
        have among : ty.isAmong kept = true := (isAmong_iff _ _).mpr ⟨first, present,
          same_trans (wfKept first present) (wfKnown k listed) wfTy same equal⟩
        rw [if_pos old, if_pos among]
        exact ih wfKept wfKnown wfRest inside
      · rw [if_neg old, distinctFrom]
        split
        · rename_i among
          refine ih wfKept (wfMore wfKnown) wfRest (List.forall_mem_append.mpr ⟨inside, ?_⟩)
          exact List.forall_mem_singleton.mpr among
        · congr 1
          refine ih (wfMore wfKept) (wfMore wfKnown) wfRest (List.forall_mem_append.mpr ⟨?_, ?_⟩)
          · intro k listed
            obtain ⟨first, present, same⟩ := (isAmong_iff _ _).mp (inside k listed)
            exact (isAmong_iff _ _).mpr ⟨first, List.mem_append_left _ present, same⟩
          · refine List.forall_mem_singleton.mpr ((isAmong_iff _ _).mpr ⟨ty, ?_, same_self ty⟩)
            exact List.mem_append_right _ (.head _)

/-- Repetitions may be left out in a part of a list first. -/
theorem distinct_splice (wfA : ∀ ty ∈ as, ty.WellFormed) (wfB : ∀ ty ∈ bs, ty.WellFormed) :
    distinct (as ++ distinct bs ++ cs) = distinct (as ++ bs ++ cs) := by
  have middle : distinctFrom (distinctFrom [] as) (distinctFrom [] bs) =
      distinctFrom (distinctFrom [] as) bs := by
    refine distinctFrom_distinctFrom ?_ nofun wfB nofun
    intro ty listed
    exact wfA ty (distinctFrom_sublist.subset listed)
  simp only [distinct, distinctFrom_append, List.nil_append, middle]

end Distinct

section Unions

variable {xs ys zs tys members others : List Ty} {m n : Ty}

/-- A member of a union is kept unless it is `never` or a literal whose keyword type is there. -/
def remains (members : List Ty) (m : Ty) : Bool := !m.isNever && !isAbsorbed members m

theorem remains_same (equal : Same m n) : remains members m = remains members n := by
  rw [remains, remains, isNever_same equal, isAbsorbed_same (.refl _) equal]

/-- The parts of a union, with the members that are not kept taken out first. -/
theorem unionParts_eq (tys : List Ty) : unionParts tys =
    distinct ((tys.flatMap unionMembers).filter (remains (tys.flatMap unionMembers))) := by
  rw [← distinct_filter fun a b => remains_same, unionParts, keptMembers]
  simp only [isAbsorbed_distinct, List.filter_filter]
  refine List.filter_congr fun m _ => ?_
  rw [remains, Bool.and_comm]

/-- What each of two groups absorbs of the other is absorbed among further members too. -/
theorem UnionAbsorbs.splice {front group other back : List Ty}
    (each : ∀ m ∈ group, UnionAbsorbs other m) :
    ∀ m ∈ front ++ group ++ back, UnionAbsorbs (front ++ other ++ back) m := by
  have outer {m : Ty} (listed : m ∈ front ∨ m ∈ back) : UnionAbsorbs (front ++ other ++ back) m := by
    refine .of_mem ?_
    simp only [List.mem_append]
    tauto
  intro m listed
  simp only [List.mem_append] at listed
  rcases listed with (first | inside) | last
  · exact outer (Or.inl first)
  · refine (each m inside).mono fun n listed => ?_
    exact List.mem_append_left _ (List.mem_append_right _ listed)
  · exact outer (Or.inr last)

/-- Of the members of a union, the same ones remain among others as of the types it is made of. -/
theorem filter_unionMembers_union (wf : ∀ ty ∈ ys, ty.WellFormed)
    (proper : ∀ m ∈ ys.flatMap unionMembers, m.isAny = false)
    (weaker : ∀ m, remains members m = true → remains (ys.flatMap unionMembers) m = true) :
    (union ys).unionMembers.filter (remains members) =
      distinct ((ys.flatMap unionMembers).filter (remains members)) := by
  have parts : (union ys).unionMembers.filter (remains members) =
      (unionParts ys).filter (remains members) := by
    rw [unionMembers_union wf (isAny_union_eq_false_iff.mpr proper)]
    split
    · rename_i empty
      rw [List.isEmpty_iff.mp empty]
      rfl
    · rfl
  rw [parts, unionParts_eq, distinct_filter fun a b => remains_same, List.filter_filter]
  congr 1
  refine List.filter_congr fun m _ => ?_
  cases kept : remains members m with
  | true => rw [weaker m kept, Bool.and_self]
  | false => rw [Bool.false_and]

/-- A union among other types is as good as the types that it is made of. -/
theorem union_splice (wfX : ∀ ty ∈ xs, ty.WellFormed) (wfY : ∀ ty ∈ ys, ty.WellFormed) :
    union (xs ++ [union ys] ++ zs) = union (xs ++ ys ++ zs) := by
  have grouped : (xs ++ [union ys] ++ zs).flatMap unionMembers =
      xs.flatMap unionMembers ++ (union ys).unionMembers ++ zs.flatMap unionMembers := by simp
  have flat : (xs ++ ys ++ zs).flatMap unionMembers =
      xs.flatMap unionMembers ++ ys.flatMap unionMembers ++ zs.flatMap unionMembers := by simp
  have forth : ∀ m ∈ (xs ++ [union ys] ++ zs).flatMap unionMembers,
      UnionAbsorbs ((xs ++ ys ++ zs).flatMap unionMembers) m := by
    rw [grouped, flat]
    exact .splice fun m member => unionMembers_union_absorbed wfY member
  have back : ∀ m ∈ (xs ++ ys ++ zs).flatMap unionMembers,
      UnionAbsorbs ((xs ++ [union ys] ++ zs).flatMap unionMembers) m := by
    rw [grouped, flat]
    exact .splice fun m listed => unionMembers_union_absorb wfY listed
  by_cases found : ∃ m ∈ (xs ++ ys ++ zs).flatMap unionMembers, m.isAny = true
  · obtain ⟨m, listed, isAny⟩ := found
    rw [union_of_any ⟨m, listed, isAny⟩, union_of_any ((back m listed).exists_isAny isAny)]
  · have proper := without_any found
    have proper' : ∀ m ∈ (xs ++ [union ys] ++ zs).flatMap unionMembers, m.isAny = false :=
      without_any fun ⟨m, listed, isAny⟩ => found ((forth m listed).exists_isAny isAny)
    have same : remains ((xs ++ [union ys] ++ zs).flatMap unionMembers) =
        remains ((xs ++ ys ++ zs).flatMap unionMembers) := by
      funext m
      have absorbed : isAbsorbed ((xs ++ [union ys] ++ zs).flatMap unionMembers) m =
          isAbsorbed ((xs ++ ys ++ zs).flatMap unionMembers) m :=
        Bool.eq_iff_iff.mpr ⟨UnionAbsorbs.isAbsorbed_trans proper forth,
          UnionAbsorbs.isAbsorbed_trans proper' back⟩
      rw [remains, remains, absorbed]
    have inner : ∀ m ∈ ys.flatMap unionMembers, m ∈ (xs ++ ys ++ zs).flatMap unionMembers := by
      rw [flat]
      exact fun m listed => List.mem_append_left _ (List.mem_append_right _ listed)
    have weaker (m : Ty) (kept : remains ((xs ++ ys ++ zs).flatMap unionMembers) m = true) :
        remains (ys.flatMap unionMembers) m = true := by
      simp only [remains, Bool.and_eq_true, Bool.not_eq_true'] at kept ⊢
      exact ⟨kept.1, isAbsorbed_mono (fun kind => inner _) kept.2⟩
    have wfFilter (tys : List Ty) (wf : ∀ ty ∈ tys, ty.WellFormed) (keep : Ty → Bool) :
        ∀ m ∈ (tys.flatMap unionMembers).filter keep, m.WellFormed :=
      fun m listed => wellFormed_unionMembers wf m (List.mem_of_mem_filter listed)
    rw [union_eq_collapse proper, union_eq_collapse proper', unionParts_eq, unionParts_eq, same]
    rw [grouped, List.filter_append, List.filter_append,
      filter_unionMembers_union wfY (fun m listed => proper m (inner m listed)) weaker,
      distinct_splice (wfFilter xs wfX _) (wfFilter ys wfY _), ← List.filter_append,
      ← List.filter_append, ← flat]

end Unions

section Intersections

variable {xs ys zs : List Ty}

/-- An intersection has `never` for a member exactly if one of its types has. -/
theorem any_isNever_intersectionMembers (wf : ∀ ty ∈ ys, ty.WellFormed) (some : ys ≠ []) :
    (intersection ys).intersectionMembers.any isNever =
      (ys.flatMap intersectionMembers).any isNever := by
  cases never : (ys.flatMap intersectionMembers).any isNever with
  | true =>
      rw [intersection_of_never never]
      rfl
  | false =>
      cases any : (ys.flatMap intersectionMembers).any isAny with
      | true =>
          rw [intersection_of_any never any]
          rfl
      | false =>
          rw [intersectionMembers_intersection wf some never any, ← never]
          exact (distinct_sameSet _).any_eq fun a b => isNever_same

/-- An intersection of something among other types is as good as the types that it is made of. -/
theorem intersection_splice (wfX : ∀ ty ∈ xs, ty.WellFormed) (wfY : ∀ ty ∈ ys, ty.WellFormed)
    (some : ys ≠ []) :
    intersection (xs ++ [intersection ys] ++ zs) = intersection (xs ++ ys ++ zs) := by
  have grouped : (xs ++ [intersection ys] ++ zs).flatMap intersectionMembers =
      xs.flatMap intersectionMembers ++ (intersection ys).intersectionMembers ++
        zs.flatMap intersectionMembers := by simp
  have flat : (xs ++ ys ++ zs).flatMap intersectionMembers =
      xs.flatMap intersectionMembers ++ ys.flatMap intersectionMembers ++
        zs.flatMap intersectionMembers := by simp
  have nevers : ((xs ++ [intersection ys] ++ zs).flatMap intersectionMembers).any isNever =
      ((xs ++ ys ++ zs).flatMap intersectionMembers).any isNever := by
    rw [grouped, flat]
    simp only [List.any_append, any_isNever_intersectionMembers wfY some]
  cases never : ((xs ++ ys ++ zs).flatMap intersectionMembers).any isNever with
  | true => exact (intersection_of_never (nevers.trans never)).trans (intersection_of_never never).symm
  | false =>
      have inner : (ys.flatMap intersectionMembers).any isNever = false := by
        simp only [flat, List.any_append, Bool.or_eq_false_iff] at never
        exact never.1.2
      cases any : (ys.flatMap intersectionMembers).any isAny with
      | true =>
          -- `any` swallows the other members of the group, and then all of those around it.
          have whole : intersection (xs ++ ys ++ zs) = .any := intersection_of_any never (by
            simp only [flat, List.any_append, any, Bool.or_true, Bool.true_or])
          have nested : intersection (xs ++ [intersection ys] ++ zs) = .any :=
            intersection_of_any (nevers.trans never) (by
              rw [grouped, intersection_of_any inner any]
              simp [intersectionMembers, isAny])
          rw [nested, whole]
      | false =>
          have same : distinct ((xs ++ [intersection ys] ++ zs).flatMap intersectionMembers) =
              distinct ((xs ++ ys ++ zs).flatMap intersectionMembers) := by
            rw [grouped, flat, intersectionMembers_intersection wfY some inner any]
            exact distinct_splice (wellFormed_intersectionMembers wfX)
              (wellFormed_intersectionMembers wfY)
          rw [intersection_eq (xs ++ [intersection ys] ++ zs), intersection_eq (xs ++ ys ++ zs), same]

end Intersections

/-- It makes no difference, not even to the order of members, whether some of the types of a union
are put together in a union of their own first, and the order of the types makes no difference to
structural equality. Intersections obey the same two laws, as long as the inner one is of
something. -/
theorem union_intersection_assoc_comm (xs ys zs : List Ty) (wfX : ∀ ty ∈ xs, ty.WellFormed)
    (wfY : ∀ ty ∈ ys, ty.WellFormed) :
    union (xs ++ [union ys] ++ zs) = union (xs ++ ys ++ zs) ∧
      (∀ others : List Ty, others.Perm xs → Same (union others) (union xs)) ∧
      (ys ≠ [] → intersection (xs ++ [intersection ys] ++ zs) = intersection (xs ++ ys ++ zs)) ∧
      ∀ others : List Ty, others.Perm xs → Same (intersection others) (intersection xs) := by
  have permuted {others : List Ty} (perm : others.Perm xs) :
      (∀ ty ∈ others, ty.WellFormed) ∧ SameSet others xs :=
    ⟨fun ty listed => wfX ty (perm.mem_iff.mp listed), .of_mem_iff fun _ => perm.mem_iff⟩
  refine ⟨union_splice wfX wfY, ?_, intersection_splice wfX wfY, ?_⟩
  · intro others perm
    exact union_same (permuted perm).1 wfX (permuted perm).2
  · intro others perm
    exact intersection_same (permuted perm).1 wfX (permuted perm).2

/-- The inner union absorbs its own literal, and its keyword type then absorbs the one before it. -/
theorem union_intersection_text_regrouped :
    let xs : List Ty := [.literal (.text "a"), .array .string]
    let ys : List Ty := [.string, .literal (.text "b")]
    union (xs ++ [union ys] ++ [.null]) = .unionOf [.array .string, .string, .null] ∧
      union (xs ++ [union ys] ++ [.null]) = union (xs ++ ys ++ [.null]) ∧
      Same (union [.array .string, .literal (.text "a")]) (union xs) ∧
      intersection (xs ++ [intersection ys] ++ [.null]) = intersection (xs ++ ys ++ [.null]) ∧
      Same (intersection [.array .string, .literal (.text "a")]) (intersection xs) := by
  intro xs ys
  have laws := union_intersection_assoc_comm xs ys [.null] (by decide +kernel) (by decide +kernel)
  refine ⟨rfl, laws.1, laws.2.1 _ (.swap ..), laws.2.2.1 nofun, laws.2.2.2 _ (.swap ..)⟩

end StructuralTypes.Ty
