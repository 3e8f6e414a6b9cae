import StructuralTypes.Proofs.NormalForm.Types

set_option autoImplicit false

namespace StructuralTypes

namespace Number

theorem isZero_of_isNaN {n : Number} (noNumber : n.isNaN = true) : n.isZero = false := by
  simp only [isNaN, isZero, Bool.and_eq_true, beq_iff_eq] at noNumber ⊢
  simp [noNumber.1]

/-- Beyond equal encodings, only the two zeros are equal, and whatever is no number. -/
theorem same_iff_bits (m n : Number) :
    m.same n = true ↔ m.bits = n.bits ∨ (m.isZero = true ∧ n.isZero = true) ∨
      (m.isNaN = true ∧ n.isNaN = true) := by
  have zeroIsZero : zero.isZero = true := by decide
  have nanIsNaN : nan.isNaN = true := by decide
  have bits : m.bits = n.bits ↔ m = n := by
    cases m
    cases n
    simp
  rw [same_iff, bits, canonical, canonical]
  grind [isZero_of_isNaN]

end Number

theorem Literal.base_same {a b : Literal} (equal : a.same b = true) : a.base = b.base := by
  cases a <;> cases b <;> simp_all [Literal.same, Literal.base]

namespace Ty

section Kinds

variable {a b : Ty}

theorem primitive?_same (equal : Same a b) : a.primitive? = b.primitive? := by
  cases sameNode_of_same equal <;> rfl

theorem isAny_eq_primitive? (ty : Ty) : ty.isAny = (ty.primitive? == some .any) := by
  cases ty with
  | primitive kind => cases kind <;> rfl
  | _ => rfl

theorem isNever_eq_primitive? (ty : Ty) : ty.isNever = (ty.primitive? == some .never) := by
  cases ty with
  | primitive kind => cases kind <;> rfl
  | _ => rfl

theorem isAny_same (equal : Same a b) : a.isAny = b.isAny := by
  rw [isAny_eq_primitive?, isAny_eq_primitive?, primitive?_same equal]

theorem isNever_same (equal : Same a b) : a.isNever = b.isNever := by
  rw [isNever_eq_primitive?, isNever_eq_primitive?, primitive?_same equal]

end Kinds

/-- Two lists hold equal types, in whatever order and however often. -/
structure SameSet (as bs : List Ty) : Prop where
  forth : Covers Same as bs
  back : Covers (fun b a => Same a b) bs as

namespace SameSet

variable {as bs cs ds : List Ty}

theorem of_mem_iff (same : ∀ a, a ∈ as ↔ a ∈ bs) : SameSet as bs where
  forth a member := ⟨a, (same a).mp member, same_self a⟩
  back b member := ⟨b, (same b).mpr member, same_self b⟩

theorem refl (as : List Ty) : SameSet as as := of_mem_iff fun _ => Iff.rfl

theorem of_forall₂ (each : List.Forall₂ Same as bs) : SameSet as bs :=
  ⟨.of_forall₂ each, .of_forall₂ each.flip⟩

theorem singleton {a b : Ty} (equal : Same a b) : SameSet [a] [b] :=
  .of_forall₂ (.cons equal .nil)

theorem append (front : SameSet as bs) (back : SameSet cs ds) : SameSet (as ++ cs) (bs ++ ds) :=
  ⟨front.forth.append back.forth, front.back.append back.back⟩

theorem flatMap {parts : Ty → List Ty} (set : SameSet as bs)
    (respects : ∀ a ∈ as, ∀ b ∈ bs, Same a b → SameSet (parts a) (parts b)) :
    SameSet (as.flatMap parts) (bs.flatMap parts) where
  forth := set.forth.flatMap fun a memberA b memberB equal =>
    (respects a memberA b memberB equal).forth
  back := set.back.flatMap fun b memberB a memberA equal =>
    (respects a memberA b memberB equal).back

theorem filter {keep keep' : Ty → Bool} (set : SameSet as bs)
    (respects : ∀ a b : Ty, Same a b → keep a = keep' b) :
    SameSet (as.filter keep) (bs.filter keep') where
  forth := set.forth.filter fun a _ b _ equal kept => by rw [← respects a b equal, kept]
  back := set.back.filter fun b _ a _ equal kept => by rw [respects a b equal, kept]

theorem any_eq {test : Ty → Bool} (set : SameSet as bs)
    (respects : ∀ a b : Ty, Same a b → test a = test b) : as.any test = bs.any test := by
  rw [Bool.eq_iff_iff, List.any_eq_true, List.any_eq_true]
  constructor
  · intro ⟨a, member, passes⟩
    obtain ⟨b, inside, equal⟩ := set.forth a member
    exact ⟨b, inside, by rw [← respects a b equal, passes]⟩
  · intro ⟨b, member, passes⟩
    obtain ⟨a, inside, equal⟩ := set.back b member
    exact ⟨a, inside, by rw [respects a b equal, passes]⟩

section WellFormed

variable (wfA : ∀ a ∈ as, a.WellFormed) (wfB : ∀ b ∈ bs, b.WellFormed)

include wfA wfB

theorem symm (set : SameSet as bs) : SameSet bs as := by
  constructor
  · intro b memberB
    obtain ⟨a, memberA, equal⟩ := set.back b memberB
    exact ⟨a, memberA, same_symm (wfA a memberA) (wfB b memberB) equal⟩
  · intro a memberA
    obtain ⟨b, memberB, equal⟩ := set.forth a memberA
    exact ⟨b, memberB, same_symm (wfA a memberA) (wfB b memberB) equal⟩

theorem trans (wfC : ∀ c ∈ cs, c.WellFormed) (one : SameSet as bs) (two : SameSet bs cs) :
    SameSet as cs := by
  constructor
  · intro a memberA
    obtain ⟨b, memberB, first⟩ := one.forth a memberA
    obtain ⟨c, memberC, second⟩ := two.forth b memberB
    exact ⟨c, memberC, same_trans (wfA a memberA) (wfB b memberB) (wfC c memberC) first second⟩
  · intro c memberC
    obtain ⟨b, memberB, second⟩ := two.back c memberC
    obtain ⟨a, memberA, first⟩ := one.back b memberB
    exact ⟨a, memberA, same_trans (wfA a memberA) (wfB b memberB) (wfC c memberC) first second⟩

/-- Types that differ from each other do not equal one and the same type. -/
theorem single (apart : as.Pairwise Apart) : Covers.Single Same as bs := by
  refine List.Pairwise.imp_of_mem ?_ apart
  intro a c memberA memberC different b memberB first second
  have turned := same_symm (wfA c memberC) (wfB b memberB) second
  exact different.1
    (same_trans (wfA a memberA) (wfB b memberB) (wfA c memberC) first turned)

/-- Lists of pairwise different types that hold equal types are equally long. -/
theorem length_eq (apartA : as.Pairwise Apart) (apartB : bs.Pairwise Apart)
    (set : SameSet as bs) : as.length = bs.length := by
  have atMost := set.forth.length_le (single wfA wfB apartA)
  have atLeast := (set.symm wfA wfB).forth.length_le (single wfB wfA apartB)
  omega

end WellFormed

end SameSet

section Members

variable {a b : Ty} (wfA : a.WellFormed) (wfB : b.WellFormed) (equal : Same a b)

include wfA wfB equal

theorem unionMembers_same : SameSet a.unionMembers b.unionMembers := by
  have turned := same_symm wfA wfB equal
  cases sameNode_of_same equal with
  | unionOf counts among =>
      refine ⟨among, fun y memberY => ?_⟩
      cases sameNode_of_same turned with
      | unionOf _ back =>
          obtain ⟨x, memberX, same⟩ := back y memberY
          exact ⟨x, memberX, same_symm (wfB.unionMember memberY) (wfA.unionMember memberX) same⟩
  | _ => exact .singleton equal

theorem intersectionMembers_same : SameSet a.intersectionMembers b.intersectionMembers := by
  have turned := same_symm wfA wfB equal
  cases sameNode_of_same equal with
  | intersectionOf counts among =>
      refine ⟨among, fun y memberY => ?_⟩
      cases sameNode_of_same turned with
      | intersectionOf _ back =>
          obtain ⟨x, memberX, same⟩ := back y memberY
          exact ⟨x, memberX,
            same_symm (wfB.intersectionMember memberY) (wfA.intersectionMember memberX) same⟩
  | _ => exact .singleton equal

end Members

section Normalization

theorem exists_same_of_mem_distinctFrom (kept : List Ty) {tys : List Ty} {ty : Ty}
    (member : ty ∈ tys) :
    (∃ k ∈ kept, Same k ty) ∨ ∃ d ∈ distinctFrom kept tys, Same d ty := by
  induction tys generalizing kept with
  | nil => cases member
  | cons first rest ih =>
      rw [distinctFrom]
      by_cases known : first.isAmong kept = true
      · rw [if_pos known]
        rcases List.mem_cons.mp member with rfl | later
        · exact Or.inl ((isAmong_iff _ _).mp known)
        · exact ih kept later
      · rw [if_neg known]
        rcases List.mem_cons.mp member with rfl | later
        · exact Or.inr ⟨ty, .head _, same_self ty⟩
        · rcases ih (kept ++ [first]) later with ⟨k, old, equal⟩ | ⟨d, inside, equal⟩
          · rcases List.mem_append.mp old with before | here
            · exact Or.inl ⟨k, before, equal⟩
            · cases List.mem_singleton.mp here
              exact Or.inr ⟨first, .head _, equal⟩
          · exact Or.inr ⟨d, .tail _ inside, equal⟩

/-- Nothing is lost when equal types are kept once. -/
theorem distinct_sameSet (tys : List Ty) : SameSet (distinct tys) tys where
  forth := fun ty member => ⟨ty, mem_of_mem_distinct member, same_self ty⟩
  back := by
    intro ty member
    rcases exists_same_of_mem_distinctFrom [] member with ⟨k, impossible, _⟩ | found
    · cases impossible
    · exact found

variable {as bs : List Ty}

theorem distinct_same (wfA : ∀ a ∈ as, a.WellFormed) (wfB : ∀ b ∈ bs, b.WellFormed)
    (set : SameSet as bs) : SameSet (distinct as) (distinct bs) := by
  have wfDistinctA : ∀ a ∈ distinct as, a.WellFormed :=
    fun a member => wfA a (mem_of_mem_distinct member)
  have wfDistinctB : ∀ b ∈ distinct bs, b.WellFormed :=
    fun b member => wfB b (mem_of_mem_distinct member)
  have reach : SameSet (distinct as) bs := (distinct_sameSet as).trans wfDistinctA wfA wfB set
  exact reach.trans wfDistinctA wfB wfDistinctB ((distinct_sameSet bs).symm wfDistinctB wfB)

theorem isAbsorbed_same {a b : Ty} (set : SameSet as bs) (equal : Same a b) :
    isAbsorbed as a = isAbsorbed bs b := by
  cases sameNode_of_same equal with
  | literal value =>
      simp only [isAbsorbed, Literal.base_same value]
      exact set.any_eq fun x y same => by rw [primitive?_same same]
  | _ => rfl

theorem keptMembers_same (set : SameSet as bs) : SameSet (keptMembers as) (keptMembers bs) := by
  have inhabited : SameSet (as.filter fun ty => !ty.isNever) (bs.filter fun ty => !ty.isNever) :=
    set.filter fun a b equal => by rw [isNever_same equal]
  exact inhabited.filter fun a b equal => by rw [isAbsorbed_same inhabited equal]

theorem collapse_same {nothing : Ty} {node : List Ty → Ty} (set : SameSet as bs)
    (counts : as.length = bs.length) (nodes : Same (node as) (node bs)) :
    Same (collapse nothing node as) (collapse nothing node bs) := by
  match as, bs, counts with
  | [], [], _ => exact same_self nothing
  | [a], [b], _ =>
      obtain ⟨c, member, equal⟩ := set.forth a (.head _)
      cases List.mem_singleton.mp member
      exact equal
  | _ :: _ :: _, _ :: _ :: _, _ => exact nodes

/-- A union depends on its members as a set only. -/
theorem union_same (wfA : ∀ a ∈ as, a.WellFormed) (wfB : ∀ b ∈ bs, b.WellFormed)
    (set : SameSet as bs) : Same (union as) (union bs) := by
  have wfFlat (tys : List Ty) (wf : ∀ ty ∈ tys, ty.WellFormed) :
      ∀ m ∈ tys.flatMap unionMembers, m.WellFormed := by
    intro m member
    obtain ⟨ty, listed, inside⟩ := List.mem_flatMap.mp member
    exact (wf ty listed).unionMembers inside
  have flat : SameSet (as.flatMap unionMembers) (bs.flatMap unionMembers) :=
    set.flatMap fun a memberA b memberB => unionMembers_same (wfA a memberA) (wfB b memberB)
  have members := distinct_same (wfFlat as wfA) (wfFlat bs wfB) flat
  rw [union_eq, union_eq, members.any_eq fun a b => isAny_same]
  split
  · exact same_self any
  · have kept := keptMembers_same members
    have wfKept (tys : List Ty) (wf : ∀ ty ∈ tys, ty.WellFormed) :
        ∀ m ∈ keptMembers (distinct (tys.flatMap unionMembers)), m.WellFormed :=
      fun m member => wfFlat tys wf m (mem_of_mem_distinct (mem_of_mem_keptMembers member))
    have apart (tys : List Ty) (wf : ∀ ty ∈ tys, ty.WellFormed) :
        (keptMembers (distinct (tys.flatMap unionMembers))).Pairwise Apart :=
      ((distinct_apart (wfFlat tys wf)).sublist List.filter_sublist).sublist List.filter_sublist
    have counts := kept.length_eq (wfKept as wfA) (wfKept bs wfB) (apart as wfA) (apart bs wfB)
    exact collapse_same kept counts (same_of_sameNode (.unionOf counts kept.forth))

theorem wellFormed_intersectionMembers (wf : ∀ a ∈ as, a.WellFormed) :
    ∀ m ∈ as.flatMap intersectionMembers, m.WellFormed := by
  intro m member
  obtain ⟨ty, listed, inside⟩ := List.mem_flatMap.mp member
  exact (wf ty listed).intersectionMembers inside

theorem intersection_same_of_members (wfA : ∀ a ∈ as, a.WellFormed) (wfB : ∀ b ∈ bs, b.WellFormed)
    (flat : SameSet (as.flatMap intersectionMembers) (bs.flatMap intersectionMembers)) :
    Same (intersection as) (intersection bs) := by
  have wfFlatA := wellFormed_intersectionMembers wfA
  have wfFlatB := wellFormed_intersectionMembers wfB
  have members := distinct_same wfFlatA wfFlatB flat
  rw [intersection_eq, intersection_eq, members.any_eq fun a b => isNever_same,
    members.any_eq fun a b => isAny_same]
  split
  · exact same_self never
  · split
    · exact same_self any
    · have counts := members.length_eq (fun m member => wfFlatA m (mem_of_mem_distinct member))
        (fun m member => wfFlatB m (mem_of_mem_distinct member)) (distinct_apart wfFlatA)
        (distinct_apart wfFlatB)
      exact collapse_same members counts (same_of_sameNode (.intersectionOf counts members.forth))

/-- An intersection depends on its members as a set only. -/
theorem intersection_same (wfA : ∀ a ∈ as, a.WellFormed) (wfB : ∀ b ∈ bs, b.WellFormed)
    (set : SameSet as bs) : Same (intersection as) (intersection bs) := by
  apply intersection_same_of_members wfA wfB
  exact set.flatMap fun a memberA b memberB => intersectionMembers_same (wfA a memberA) (wfB b memberB)

end Normalization

section Rebuilding

/-- Two types are built in the same way from parts that are related one by one. Unions and
intersections are built by the normalizing constructors. -/
inductive Rebuilt (related : Ty → Ty → Prop) : Ty → Ty → Prop
  | array {a b : Ty} (element : related a b) : Rebuilt related (array a) (array b)
  | tuple {as bs : List Ty} (each : List.Forall₂ related as bs) :
    Rebuilt related (tuple as) (tuple bs)
  | object {s t : Shape Ty}
    (properties : List.Forall₂
      (fun p q => p.name = q.name ∧ related p.ty q.ty ∧ p.optional = q.optional)
      s.properties t.properties)
    (index : Option.Rel (fun i j => related i.key j.key ∧ related i.value j.value) s.index t.index)
    (className : s.className = t.className) : Rebuilt related (object s) (object t)
  | record {key key' value value' : Ty} (keys : related key key') (values : related value value') :
    Rebuilt related (record key value) (record key' value')
  | union {as bs : List Ty} (each : List.Forall₂ related as bs) :
    Rebuilt related (union as) (union bs)
  | intersection {as bs : List Ty} (each : List.Forall₂ related as bs) :
    Rebuilt related (intersection as) (intersection bs)
  | function {s t : Signature Ty}
    (typeParams : List.Forall₂
      (fun p q => p.name = q.name ∧ Option.Rel related p.constraint q.constraint)
      s.typeParams t.typeParams)
    (params : List.Forall₂ related s.params t.params) (result : related s.result t.result) :
    Rebuilt related (function s) (function t)
  | keyof {a b : Ty} (subject : related a b) : Rebuilt related (keyof a) (keyof b)
  | predicate {parameter : String} {a b : Ty} (guard : related a b) :
    Rebuilt related (predicate parameter a) (predicate parameter b)

/-- Well-formed types that are equal. -/
structure EqualParts (a b : Ty) : Prop where
  left : a.WellFormed
  right : b.WellFormed
  same : Same a b

theorem rel_imp {α : Type} {related weaker : α → α → Prop} {i j : Option α}
    (implies : ∀ a b, related a b → weaker a b) (both : Option.Rel related i j) :
    Option.Rel weaker i j := by
  cases both with
  | some pair => exact .some (implies _ _ pair)
  | none => exact .none

theorem EqualParts.each {as bs : List Ty} (each : List.Forall₂ EqualParts as bs) :
    List.Forall₂ Same as bs := each.imp fun _ _ parts => parts.same

theorem EqualParts.lefts {as bs : List Ty} (each : List.Forall₂ EqualParts as bs) :
    ∀ a ∈ as, a.WellFormed := by
  intro a member
  obtain ⟨b, _, parts⟩ := Covers.of_forall₂ each a member
  exact parts.left

theorem EqualParts.rights {as bs : List Ty} (each : List.Forall₂ EqualParts as bs) :
    ∀ b ∈ bs, b.WellFormed := by
  intro b member
  obtain ⟨a, _, parts⟩ := Covers.of_forall₂ each.flip b member
  exact parts.right

theorem same_of_rebuilt {a b : Ty} (built : Rebuilt EqualParts a b) : Same a b := by
  cases built with
  | array element => exact element.same
  | tuple each => exact (sameEach_iff _ _).mpr (EqualParts.each each)
  | @object s t properties index className =>
      have matched : List.Forall₂ SameProperty s.properties t.properties :=
        properties.imp fun p q both => ⟨both.1, both.2.1.same, both.2.2⟩
      refine (same_object_iff s t).mpr ⟨matched.length_eq, Covers.of_forall₂ matched, ?_, className⟩
      exact rel_imp (fun i j both => ⟨both.1.same, both.2.same⟩) index
  | record keys values => exact same_of_sameNode (.record keys.same values.same)
  | union each =>
      exact union_same (EqualParts.lefts each) (EqualParts.rights each)
        (.of_forall₂ (EqualParts.each each))
  | intersection each =>
      exact intersection_same (EqualParts.lefts each) (EqualParts.rights each)
        (.of_forall₂ (EqualParts.each each))
  | @function s t typeParams params result =>
      refine (same_function_iff s t).mpr ⟨?_, EqualParts.each params, result.same⟩
      refine typeParams.imp fun p q both => ⟨both.1, ?_⟩
      exact rel_imp (fun c d constraint => constraint.same) both.2
  | keyof subject => exact subject.same
  | predicate guard => exact same_of_sameNode (.predicate _ guard.same)

/-- Structural equality is an equivalence of well-formed types, it is kept when parts are replaced by
equal ones, and number literals are equal by what their encodings stand for. -/
theorem same_equivalence_congruence :
    Equivalence (fun a b : { ty : Ty // ty.WellFormed } => Same a.val b.val) ∧
      (∀ a b : Ty, Rebuilt EqualParts a b → Same a b) ∧
      ∀ m n : Number, Same (literal (.number m)) (literal (.number n)) ↔
        m.bits = n.bits ∨ (m.isZero = true ∧ n.isZero = true) ∨
          (m.isNaN = true ∧ n.isNaN = true) := by
  refine ⟨⟨?_, ?_, ?_⟩, fun a b => same_of_rebuilt, Number.same_iff_bits⟩
  · intro a
    exact same_self a.val
  · intro a b equal
    exact same_symm a.property b.property equal
  · intro a b c first second
    exact same_trans a.property b.property c.property first second

end Rebuilding

end Ty

end StructuralTypes
