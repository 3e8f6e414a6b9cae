import StructuralTypes.Proofs.Ty.Congruence

set_option autoImplicit false

namespace StructuralTypes.Ty

theorem forall₂_constraints {ts us : List (TypeParam Ty)}
    (each : List.Forall₂ (fun t u => t.name = u.name ∧ Option.Rel Same t.constraint u.constraint) ts us) :
    List.Forall₂ Same (ts.filterMap (·.constraint)) (us.filterMap (·.constraint)) := by
  induction each with
  | nil => exact .nil
  | @cons t u ts us pair rest ih =>
      have constraints := pair.2
      rw [List.filterMap_cons, List.filterMap_cons]
      cases own : t.constraint with
      | none =>
          cases other : u.constraint with
          | none => exact ih
          | some d =>
              rw [own, other] at constraints
              cases constraints
      | some c =>
          cases other : u.constraint with
          | none =>
              rw [own, other] at constraints
              cases constraints
          | some d =>
              rw [own, other, Option.rel_some_some] at constraints
              exact .cons constraints ih

theorem forall₂_index {i j : Option (IndexSignature Ty)}
    (both : Option.Rel (fun a b : IndexSignature Ty => Same a.key b.key ∧ Same a.value b.value) i j) :
    List.Forall₂ Same (i.toList.flatMap fun index => [index.key, index.value])
      (j.toList.flatMap fun index => [index.key, index.value]) := by
  cases both with
  | none => exact .nil
  | some pair => exact .cons pair.1 (.cons pair.2 .nil)

/-- Two types that differ do not equal one and the same type. -/
theorem single_of_apart {as bs : List Ty} (wf : ∀ a ∈ as, a.WellFormed)
    (wfOther : ∀ a ∈ as, ∀ b, Same a b → b.WellFormed) (apart : as.Pairwise Apart) :
    Covers.Single Same as bs := by
  refine List.Pairwise.imp_of_mem ?_ apart
  intro a c memberA memberC different b _ first second
  have wfB := wfOther c memberC b second
  have turned := same_symm (wf c memberC) wfB second
  exact different.1 (same_trans (wf a memberA) wfB (wf c memberC) first turned)

/-- The direct parts of equal types are equal one by one when those of the second are rearranged. -/
theorem exists_perm_of_parts {a b : Ty} (wf : a.WellFormed)
    (wfOther : ∀ child ∈ a.children, ∀ part, Same child part → part.WellFormed)
    (equal : Same a b) :
    ∃ parts, List.Perm parts b.children ∧ List.Forall₂ Same a.children parts := by
  have inOrder (each : List.Forall₂ Same a.children b.children) :
      ∃ parts, List.Perm parts b.children ∧ List.Forall₂ Same a.children parts :=
    ⟨b.children, .refl _, each⟩
  cases sameNode_of_same equal with
  | array element => exact inOrder (.cons element .nil)
  | tuple elements => exact inOrder elements
  | @object s t counts properties index =>
      obtain ⟨partners, permuted, each⟩ :=
        Covers.exists_perm_of_length properties (properties_single wf.node) counts
      refine ⟨partners.map (·.ty) ++ t.index.toList.flatMap fun i => [i.key, i.value],
        (permuted.map _).append_right _, List.rel_append ?_ (forall₂_index index)⟩
      rw [List.forall₂_map_left_iff, List.forall₂_map_right_iff]
      exact each.imp fun p q same => same.ty
  | record keys values => exact inOrder (.cons keys (.cons values .nil))
  | @unionOf members others counts among =>
      have single : Covers.Single Same members others :=
        single_of_apart (fun _ => wf.unionMember) wfOther wf.node.apart
      exact Covers.exists_perm_of_length among single counts
  | @intersectionOf members others counts among =>
      have single : Covers.Single Same members others :=
        single_of_apart (fun _ => wf.intersectionMember) wfOther wf.node.apart
      exact Covers.exists_perm_of_length among single counts
  | function typeParams params result =>
      have constraints := forall₂_constraints typeParams
      exact inOrder (List.rel_append (List.rel_append constraints params) (.cons result .nil))
  | keyof subject => exact inOrder (.cons subject .nil)
  | predicate parameter guard => exact inOrder (.cons guard .nil)
  | primitive | literal | anyFunction | ref => exact inOrder .nil

theorem literal?_base_same {a b : Ty} (equal : Same a b) :
    a.literal?.map Literal.base = b.literal?.map Literal.base := by
  cases sameNode_of_same equal with
  | literal value => exact congrArg some (Literal.base_same value)
  | _ => rfl

theorem isUnion_same {a b : Ty} (equal : Same a b) : a.isUnion = b.isUnion := by
  cases sameNode_of_same equal <;> rfl

theorem isIntersection_same {a b : Ty} (equal : Same a b) :
    a.isIntersection = b.isIntersection := by
  cases sameNode_of_same equal <;> rfl

/-- What holds of every two types of a list carries over to types that equal them. -/
theorem pairwise_of_forall₂ {between : Ty → Ty → Prop} {as bs : List Ty}
    (each : List.Forall₂ Same as bs)
    (carries : ∀ a ∈ as, ∀ b ∈ bs, Same a b → ∀ c ∈ as, ∀ d ∈ bs, Same c d → between a c → between b d)
    (pairwise : as.Pairwise between) : bs.Pairwise between := by
  induction each with
  | nil => exact .nil
  | @cons a b as bs first rest ih =>
      obtain ⟨here, later⟩ := List.pairwise_cons.mp pairwise
      refine List.pairwise_cons.mpr ⟨?_, ih ?_ later⟩
      · intro d memberD
        obtain ⟨c, memberC, second⟩ := Covers.of_forall₂ rest.flip d memberD
        exact carries a (.head _) b (.head _) first c (.tail _ memberC) d (.tail _ memberD) second
          (here c memberC)
      · intro a memberA b memberB first c memberC d memberD second
        exact carries a (.tail _ memberA) b (.tail _ memberB) first c (.tail _ memberC) d
          (.tail _ memberD) second

section NormalForms

variable {members others parts : List Ty} (wf : ∀ m ∈ members, m.WellFormed)
  (wfOther : ∀ n ∈ others, n.WellFormed) (permuted : List.Perm parts others)
  (each : List.Forall₂ Same members parts)

include permuted each

theorem exists_same_of_perm {n : Ty} (member : n ∈ others) : ∃ m ∈ members, Same m n :=
  Covers.of_forall₂ each.flip n (permuted.mem_iff.mpr member)

theorem forall_of_perm {holds : Ty → Prop} (respects : ∀ m n : Ty, Same m n → holds m → holds n)
    (known : ∀ m ∈ members, holds m) : ∀ n ∈ others, holds n := by
  intro n member
  obtain ⟨m, inside, same⟩ := exists_same_of_perm permuted each member
  exact respects m n same (known m inside)

theorem proper_of_perm (proper : ∀ m ∈ members, m.isAny = false ∧ m.isNever = false) :
    ∀ n ∈ others, n.isAny = false ∧ n.isNever = false := by
  refine forall_of_perm permuted each ?_ proper
  intro m n same known
  rw [← isAny_same same, ← isNever_same same]
  exact known

include wf wfOther

theorem apart_of_perm (apart : members.Pairwise Apart) : others.Pairwise Apart := by
  have swap {a b : Ty} (different : Apart a b) : Apart b a := ⟨different.2, different.1⟩
  refine (permuted.pairwise_iff swap).mp (pairwise_of_forall₂ each ?_ apart)
  intro a memberA b memberB first c memberC d memberD second different
  have wfA := wf a memberA
  have wfB := wfOther b (permuted.mem_iff.mp memberB)
  have wfC := wf c memberC
  have wfD := wfOther d (permuted.mem_iff.mp memberD)
  constructor
  · intro same
    exact different.1 (same_trans wfA wfB wfC first
      (same_trans wfB wfD wfC same (same_symm wfC wfD second)))
  · intro same
    exact different.2 (same_trans wfC wfD wfA second
      (same_trans wfD wfB wfA same (same_symm wfA wfB first)))

theorem normalUnion_of_perm (normal : NormalUnion members) : NormalUnion others where
  several := by
    have counts := each.length_eq.trans permuted.length_eq
    have several := normal.several
    omega
  flat := by
    refine forall_of_perm permuted each ?_ normal.flat
    intro m n same single
    rw [← isUnion_same same, single]
  proper := proper_of_perm permuted each normal.proper
  apart := apart_of_perm wf wfOther permuted each normal.apart
  unabsorbed := by
    intro n memberN value isLiteral k memberK
    obtain ⟨m, insideM, sameM⟩ := exists_same_of_perm permuted each memberN
    obtain ⟨l, insideL, sameL⟩ := exists_same_of_perm permuted each memberK
    have bases := literal?_base_same sameM
    rw [Option.mem_def.mp isLiteral] at bases
    obtain ⟨own, found, base⟩ := Option.map_eq_some_iff.mp bases
    rw [← primitive?_same sameL, ← base]
    exact normal.unabsorbed m insideM own found l insideL

theorem normalIntersection_of_perm (normal : NormalIntersection members) :
    NormalIntersection others where
  several := by
    have counts := each.length_eq.trans permuted.length_eq
    have several := normal.several
    omega
  flat := by
    refine forall_of_perm permuted each ?_ normal.flat
    intro m n same single
    rw [← isIntersection_same same, single]
  proper := proper_of_perm permuted each normal.proper
  apart := apart_of_perm wf wfOther permuted each normal.apart

end NormalForms

theorem names_of_same_object {s t : Shape Ty} (names : (s.properties.map (·.name)).Nodup)
    (equal : Same (object s) (object t)) : (t.properties.map (·.name)).Nodup := by
  obtain ⟨counts, properties, _, _⟩ := (same_object_iff s t).mp equal
  obtain ⟨partners, permuted, each⟩ :=
    Covers.exists_perm_of_length properties (properties_single names) counts
  have same : s.properties.map (·.name) = partners.map (·.name) := by
    rw [← List.forall₂_eq_eq_eq, List.forall₂_map_left_iff, List.forall₂_map_right_iff]
    exact each.imp fun p q pair => pair.name
  rw [same] at names
  exact (permuted.map _).nodup_iff.mp names

/-- A type that equals one in normal form is in normal form. -/
theorem WellFormed.of_same {a b : Ty} (wf : a.WellFormed) (equal : Same a b) : b.WellFormed := by
  induction a using childrenInduction generalizing b with
  | step a ih =>
      have wfOther : ∀ child ∈ a.children, ∀ part, Same child part → part.WellFormed :=
        fun child member part same => ih child member (wf.child member) same
      obtain ⟨parts, permuted, each⟩ := exists_perm_of_parts wf wfOther equal
      have wfParts : ∀ part ∈ b.children, part.WellFormed := by
        intro part member
        obtain ⟨child, inside, same⟩ := exists_same_of_perm permuted each member
        exact wfOther child inside part same
      refine .intro ?_ wfParts
      have node := wf.node
      cases sameNode_of_same equal with
      | object => exact names_of_same_object node equal
      | unionOf =>
          exact normalUnion_of_perm (fun _ => wf.unionMember) wfParts permuted each node
      | intersectionOf =>
          exact normalIntersection_of_perm (fun _ => wf.intersectionMember) wfParts permuted each node
      | _ => exact trivial

section Members

variable {ty : Ty} {members : List Ty}

theorem exists_unionOf_of_same (wf : (unionOf members).WellFormed)
    (equal : Same (unionOf members) ty) : ∃ others, ty = unionOf others ∧ SameSet members others := by
  have set := unionMembers_same wf (wf.of_same equal) equal
  cases sameNode_of_same equal with
  | unionOf => exact ⟨_, rfl, set⟩

theorem exists_intersectionOf_of_same (wf : (intersectionOf members).WellFormed)
    (equal : Same (intersectionOf members) ty) :
    ∃ others, ty = intersectionOf others ∧ SameSet members others := by
  have set := intersectionMembers_same wf (wf.of_same equal) equal
  cases sameNode_of_same equal with
  | intersectionOf => exact ⟨_, rfl, set⟩

end Members

theorem sizeAll_append (as bs : List Ty) : sizeAll (as ++ bs) = sizeAll as + sizeAll bs := by
  induction as with
  | nil => simp [sizeAll]
  | cons a as ih =>
      rw [List.cons_append, sizeAll, sizeAll, ih]
      omega

theorem sizeAll_perm {as bs : List Ty} (permuted : List.Perm as bs) :
    sizeAll as = sizeAll bs := by
  induction permuted with
  | nil => rfl
  | cons a _ ih => rw [sizeAll, sizeAll, ih]
  | swap a b tys =>
      simp only [sizeAll]
      omega
  | trans _ _ one two => exact one.trans two

theorem sizeAll_eq_of_forall₂ {as bs : List Ty}
    (each : List.Forall₂ (fun a b => a.size = b.size) as bs) : sizeAll as = sizeAll bs := by
  induction each with
  | nil => rfl
  | cons first _ ih => rw [sizeAll, sizeAll, first, ih]

theorem sizeProperties_eq (properties : List (Property Ty)) :
    sizeProperties properties = sizeAll (properties.map (·.ty)) := by
  induction properties with
  | nil => rfl
  | cons p ps ih => rw [sizeProperties, List.map_cons, sizeAll, ih]

theorem sizeTypeParams_eq (params : List (TypeParam Ty)) :
    sizeTypeParams params = sizeAll (params.filterMap (·.constraint)) := by
  induction params with
  | nil => rfl
  | cons p ps ih =>
      obtain ⟨name, constraint⟩ := p
      cases constraint with
      | none => rw [sizeTypeParams, ih, List.filterMap_cons]
      | some c => rw [sizeTypeParams, ih, List.filterMap_cons, sizeAll]

theorem size_eq (ty : Ty) : ty.size = sizeAll ty.children + 1 := by
  cases ty with
  | object shape =>
      obtain ⟨properties, index, className, fresh⟩ := shape
      cases index with
      | none => simp [size, children, Shape.parts, sizeProperties_eq]
      | some index =>
          simp only [size, children, Shape.parts, sizeProperties_eq, sizeAll_append,
            Option.toList_some, List.flatMap_cons, List.flatMap_nil, List.append_nil, sizeAll]
          omega
  | function signature =>
      obtain ⟨typeParams, params, result⟩ := signature
      simp only [size, children, Signature.parts, sizeTypeParams_eq, sizeAll_append, sizeAll]
      omega
  | _ => simp [size, children, sizeAll]

/-- Equal types have equally many nodes. -/
theorem size_same {a b : Ty} (wf : a.WellFormed) (equal : Same a b) : a.size = b.size := by
  induction a using childrenInduction generalizing b with
  | step a ih =>
      obtain ⟨parts, permuted, each⟩ := exists_perm_of_parts wf
        (fun child member part same => (wf.child member).of_same same) equal
      have total : sizeAll a.children = sizeAll parts := by
        obtain ⟨counts, pairs⟩ := List.forall₂_iff_zip.mp each
        refine sizeAll_eq_of_forall₂ (List.forall₂_iff_zip.mpr ⟨counts, ?_⟩)
        intro child part zipped
        have inside := (List.of_mem_zip zipped).1
        exact ih child inside (wf.child inside) (pairs zipped)
      rw [size_eq a, size_eq b, total, sizeAll_perm permuted]

end StructuralTypes.Ty
