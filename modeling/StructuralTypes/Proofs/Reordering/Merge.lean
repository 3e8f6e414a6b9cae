import Mathlib.Data.List.Induction
import Mathlib.Data.List.Perm.Basic
import StructuralTypes.Proofs.Reordering.Leaves

/-!
A merged shape depends on its leaves as a set, but for one thing: of several index signatures it keeps
the key of the first. So the merged shapes of equal types are alike, which is to say equal up to that
key.
-/

set_option autoImplicit false

namespace StructuralTypes

namespace Ty

section Intersections

variable {as : List Ty} {a b : Ty}

theorem intersection_of_never (never : (as.flatMap intersectionMembers).any isNever = true) :
    intersection as = .never := by
  have found : (distinct (as.flatMap intersectionMembers)).any isNever = true := by
    rw [(distinct_sameSet _).any_eq fun a b => isNever_same, never]
  rw [intersection_eq, if_pos found]

theorem intersection_of_any (inhabited : (as.flatMap intersectionMembers).any isNever = false)
    (any : (as.flatMap intersectionMembers).any isAny = true) : intersection as = .any := by
  have noNever : (distinct (as.flatMap intersectionMembers)).any isNever = false := by
    rw [(distinct_sameSet _).any_eq fun a b => isNever_same, inhabited]
  have found : (distinct (as.flatMap intersectionMembers)).any isAny = true := by
    rw [(distinct_sameSet _).any_eq fun a b => isAny_same, any]
  rw [intersection_eq, if_neg (by simp [noNever]), if_pos found]

theorem intersection_same_of_never {bs : List Ty}
    (left : (as.flatMap intersectionMembers).any isNever = true)
    (right : (bs.flatMap intersectionMembers).any isNever = true) :
    Same (intersection as) (intersection bs) := by
  rw [intersection_of_never left, intersection_of_never right]
  exact same_self _

theorem intersection_same_of_any {bs : List Ty}
    (inhabited : (as.flatMap intersectionMembers).any isNever = false)
    (inhabited' : (bs.flatMap intersectionMembers).any isNever = false)
    (left : (as.flatMap intersectionMembers).any isAny = true)
    (right : (bs.flatMap intersectionMembers).any isAny = true) :
    Same (intersection as) (intersection bs) := by
  rw [intersection_of_any inhabited left, intersection_of_any inhabited' right]
  exact same_self _

theorem intersectionMembers_eq_self (single : a.isIntersection = false) :
    a.intersectionMembers = [a] := by
  cases a with
  | intersectionOf => cases single
  | _ => rfl

theorem intersectionMembers_ne_nil (wf : a.WellFormed) : a.intersectionMembers ≠ [] := by
  cases a with
  | intersectionOf members =>
      intro none
      have several := wf.node.several
      rw [show members = [] from none] at several
      cases several
  | _ => exact List.cons_ne_nil _ _

/-- Unless `never` or `any` swallows them, the members of an intersection are those of its parts. -/
theorem intersectionMembers_intersection (wf : ∀ a ∈ as, a.WellFormed) (some : as ≠ [])
    (inhabited : (as.flatMap intersectionMembers).any isNever = false)
    (proper : (as.flatMap intersectionMembers).any isAny = false) :
    (intersection as).intersectionMembers = distinct (as.flatMap intersectionMembers) := by
  have noNever : (distinct (as.flatMap intersectionMembers)).any isNever = false := by
    rw [(distinct_sameSet _).any_eq fun a b => isNever_same, inhabited]
  have noAny : (distinct (as.flatMap intersectionMembers)).any isAny = false := by
    rw [(distinct_sameSet _).any_eq fun a b => isAny_same, proper]
  have nonempty : distinct (as.flatMap intersectionMembers) ≠ [] := by
    obtain ⟨first, rest, rfl⟩ := List.exists_cons_of_ne_nil some
    obtain ⟨m, others, members⟩ := List.exists_cons_of_ne_nil (intersectionMembers_ne_nil (wf first (.head _)))
    have member : m ∈ (first :: rest).flatMap intersectionMembers := by
      rw [List.flatMap_cons, members]
      exact .head _
    obtain ⟨kept, inside, _⟩ := (distinct_sameSet _).back m member
    exact List.ne_nil_of_mem inside
  have flat : ∀ m ∈ distinct (as.flatMap intersectionMembers), m.isIntersection = false := by
    intro m member
    obtain ⟨ty, listed, inside⟩ := List.mem_flatMap.mp (mem_of_mem_distinct member)
    exact (wf ty listed).intersectionMembers_flat inside
  rw [intersection_eq, if_neg (by simp [noNever]), if_neg (by simp [noAny])]
  match distinct (as.flatMap intersectionMembers), nonempty, flat with
  | [ty], _, flat => exact intersectionMembers_eq_self (flat ty (.head _))
  | _ :: _ :: _, _, _ => rfl

/-- Intersecting one by one is the same as intersecting all at once. -/
theorem intersection_snoc (wf : ∀ a ∈ as, a.WellFormed) (some : as ≠ []) (wfB : b.WellFormed) :
    Same (intersection [intersection as, b]) (intersection (as ++ [b])) := by
  have left : [intersection as, b].flatMap intersectionMembers =
      (intersection as).intersectionMembers ++ b.intersectionMembers := by simp
  have right : (as ++ [b]).flatMap intersectionMembers =
      as.flatMap intersectionMembers ++ b.intersectionMembers := by simp
  have wfBoth : ∀ a ∈ [intersection as, b], a.WellFormed := by
    simp only [List.mem_cons, List.not_mem_nil, or_false, forall_eq_or_imp, forall_eq]
    exact ⟨intersection_wellFormed wf, wfB⟩
  have wfAll : ∀ a ∈ as ++ [b], a.WellFormed :=
    List.forall_mem_append.mpr ⟨wf, by simpa using wfB⟩
  by_cases never : (as.flatMap intersectionMembers).any isNever = true
  · apply intersection_same_of_never
    · rw [left, intersection_of_never never]
      rfl
    · rw [right, List.any_append, never, Bool.true_or]
  · have inhabited : (as.flatMap intersectionMembers).any isNever = false := by simpa using never
    by_cases any : (as.flatMap intersectionMembers).any isAny = true
    · by_cases last : b.intersectionMembers.any isNever = true
      · apply intersection_same_of_never
        · rw [left, List.any_append, last, Bool.or_true]
        · rw [right, List.any_append, last, Bool.or_true]
      · have lastInhabited : b.intersectionMembers.any isNever = false := by simpa using last
        have anything := intersection_of_any inhabited any
        have stepwise : ([intersection as, b].flatMap intersectionMembers).any isNever = false := by
          rw [left, anything, List.any_append, lastInhabited]
          rfl
        have whole : ((as ++ [b]).flatMap intersectionMembers).any isNever = false := by
          rw [right, List.any_append, inhabited, lastInhabited, Bool.or_false]
        apply intersection_same_of_any stepwise whole
        · rw [left, anything]
          rfl
        · rw [right, List.any_append, any, Bool.true_or]
    · have proper : (as.flatMap intersectionMembers).any isAny = false := by simpa using any
      apply intersection_same_of_members wfBoth wfAll
      rw [left, right, intersectionMembers_intersection wf some inhabited proper]
      exact (distinct_sameSet _).append (.refl _)

theorem intersection_singleton_eq (wf : a.WellFormed) : intersection [a] = a := by
  have flat : [a].flatMap intersectionMembers = a.intersectionMembers := List.flatMap_singleton _ a
  cases a with
  | primitive kind => cases kind <;> rfl
  | intersectionOf members =>
      have noNever : members.any isNever = false :=
        List.any_eq_false.mpr fun m member => by simp [(wf.node.proper m member).2]
      have noAny : members.any isAny = false :=
        List.any_eq_false.mpr fun m member => by simp [(wf.node.proper m member).1]
      have kept : distinct members = members := distinct_of_apart wf.node.apart
      have several := wf.node.several
      rw [intersection_eq, flat]
      simp only [intersectionMembers, kept, noNever, noAny, Bool.false_eq_true, if_false]
      exact collapse_of_several several
  | _ => rfl

theorem intersection_singleton (wf : a.WellFormed) : Same a (intersection [a]) := by
  rw [intersection_singleton_eq wf]
  exact same_self a

/-- One step of intersecting one by one. -/
theorem same_intersection_snoc (wf : ∀ a ∈ as, a.WellFormed) (some : as ≠ []) (wfA : a.WellFormed)
    (wfB : b.WellFormed) (equal : Same a (intersection as)) :
    Same (intersection [a, b]) (intersection (as ++ [b])) := by
  have wfMeet := intersection_wellFormed wf
  have wfPair : ∀ ty ∈ [a, b], ty.WellFormed := by simpa using ⟨wfA, wfB⟩
  have wfStep : ∀ ty ∈ [intersection as, b], ty.WellFormed := by simpa using ⟨wfMeet, wfB⟩
  have wfAll : ∀ ty ∈ as ++ [b], ty.WellFormed :=
    List.forall_mem_append.mpr ⟨wf, by simpa using wfB⟩
  have step : Same (intersection [a, b]) (intersection [intersection as, b]) :=
    intersection_same wfPair wfStep (.of_forall₂ (.cons equal (.cons (same_self b) .nil)))
  exact same_trans (intersection_wellFormed wfPair) (intersection_wellFormed wfStep)
    (intersection_wellFormed wfAll) step (intersection_snoc wf some wfB)

/-- Types that are intersections of equal sets are equal. -/
theorem same_of_intersections {bs : List Ty} (wfAs : ∀ a ∈ as, a.WellFormed)
    (wfBs : ∀ b ∈ bs, b.WellFormed) (set : SameSet as bs) (wfA : a.WellFormed) (wfB : b.WellFormed)
    (left : Same a (intersection as)) (right : Same b (intersection bs)) : Same a b := by
  have wfLeft := intersection_wellFormed wfAs
  have wfRight := intersection_wellFormed wfBs
  have middle := intersection_same wfAs wfBs set
  have turned := same_symm wfB wfRight right
  exact same_trans wfA wfLeft wfB left (same_trans wfLeft wfRight wfB middle turned)

end Intersections

end Ty

section Slots

/-- The types of the slots of a name. -/
def typesNamed (name : String) (properties : List (Property Ty)) : List Ty :=
  (properties.filter (·.name == name)).map (·.ty)

theorem mem_typesNamed {name : String} {properties : List (Property Ty)} {ty : Ty} :
    ty ∈ typesNamed name properties ↔ ∃ p ∈ properties, p.name = name ∧ p.ty = ty := by
  simp [typesNamed, and_assoc]

theorem typesNamed_snoc (name : String) (properties : List (Property Ty)) (property : Property Ty) :
    typesNamed name (properties ++ [property]) =
      typesNamed name properties ++ if property.name = name then [property.ty] else [] := by
  rw [typesNamed, List.filter_append, List.map_append]
  by_cases named : property.name = name <;> simp [typesNamed, named]

/-- One slot for each name, with all types that are given for the name. -/
structure Meets (properties merged : List (Property Ty)) : Prop where
  names : (merged.map (·.name)).Nodup
  named : ∀ name, name ∈ merged.map (·.name) ↔ name ∈ properties.map (·.name)
  types : ∀ p ∈ merged, p.ty.Same (.intersection (typesNamed p.name properties))
  optional : ∀ p ∈ merged, p.optional = true ↔ ∀ q ∈ properties, q.name = p.name → q.optional = true

theorem typesNamed_ne_nil {name : String} {properties : List (Property Ty)}
    (present : name ∈ properties.map (·.name)) : typesNamed name properties ≠ [] := by
  obtain ⟨p, member, named⟩ := List.mem_map.mp present
  exact List.ne_nil_of_mem (mem_typesNamed.mpr ⟨p, member, named, rfl⟩)

/-- A slot with the types of two. -/
def Property.meet (first second : Property Ty) : Property Ty where
  name := second.name
  ty := .intersection [first.ty, second.ty]
  optional := first.optional && second.optional

theorem eq_of_name {properties : List (Property Ty)} (names : (properties.map (·.name)).Nodup)
    {p q : Property Ty} (memberP : p ∈ properties) (memberQ : q ∈ properties)
    (same : p.name = q.name) : p = q := by
  have foundP := findProperty?_of_mem names memberP
  have foundQ := findProperty?_of_mem names memberQ
  rw [same, foundQ] at foundP
  exact (Option.some.inj foundP).symm

section Step

variable {properties : List (Property Ty)} {property first : Property Ty}

theorem meetProperty_of_new (new : findProperty? property.name properties = none) :
    meetProperty properties property = properties ++ [property] := by
  rw [meetProperty, new]

theorem meetProperty_of_found (found : findProperty? property.name properties = some first) :
    meetProperty properties property = putProperty (first.meet property) properties := by
  rw [meetProperty, found]
  rfl

theorem names_of_found (found : findProperty? property.name properties = some first) :
    (meetProperty properties property).map (·.name) = properties.map (·.name) := by
  obtain ⟨member, named⟩ := mem_names_of_findProperty? found
  have present : (first.meet property).name ∈ properties.map (·.name) :=
    List.mem_map.mpr ⟨first, member, named⟩
  rw [meetProperty_of_found found, names_putProperty present]

theorem named_meetProperty (name : String) :
    name ∈ (meetProperty properties property).map (·.name) ↔
      name ∈ (properties ++ [property]).map (·.name) := by
  cases found : findProperty? property.name properties with
  | none => rw [meetProperty_of_new found]
  | some first =>
      obtain ⟨member, named⟩ := mem_names_of_findProperty? found
      have present : property.name ∈ properties.map (·.name) := List.mem_map.mpr ⟨first, member, named⟩
      rw [names_of_found found, List.map_append, List.mem_append, List.map_singleton,
        List.mem_singleton]
      constructor
      · exact Or.inl
      · intro either
        rcases either with known | rfl
        · exact known
        · exact present

/-- A slot that is there after a property was added is an old one of another name, the property
itself, or the meet of both. -/
theorem mem_meetProperty (names : (properties.map (·.name)).Nodup) {p : Property Ty}
    (member : p ∈ meetProperty properties property) :
    (p ∈ properties ∧ p.name ≠ property.name) ∨
      (p = property ∧ property.name ∉ properties.map (·.name)) ∨
        ∃ first ∈ properties, first.name = property.name ∧ p = first.meet property := by
  cases found : findProperty? property.name properties with
  | none =>
      have new := findProperty?_eq_none.mp found
      rw [meetProperty_of_new found] at member
      rcases List.mem_append.mp member with old | last
      · refine Or.inl ⟨old, fun same => new ?_⟩
        rw [← same]
        exact List.mem_map_of_mem old
      · exact Or.inr (Or.inl ⟨List.mem_singleton.mp last, new⟩)
  | some first =>
      obtain ⟨inside, named⟩ := mem_names_of_findProperty? found
      have still : ((meetProperty properties property).map (·.name)).Nodup := by
        rw [names_of_found found]
        exact names
      by_cases same : p.name = property.name
      · refine Or.inr (Or.inr ⟨first, inside, named, eq_of_name still member ?_ same⟩)
        rw [meetProperty_of_found found]
        exact mem_putProperty_self _ _
      · rw [meetProperty_of_found found] at member
        rcases mem_putProperty member with rfl | old
        · exact absurd rfl same
        · exact Or.inl ⟨old, same⟩

end Step

theorem typesNamed_eq_nil {name : String} {properties : List (Property Ty)}
    (absent : name ∉ properties.map (·.name)) : typesNamed name properties = [] := by
  rw [List.eq_nil_iff_forall_not_mem]
  intro ty member
  obtain ⟨p, listed, named, _⟩ := mem_typesNamed.mp member
  exact absent (List.mem_map.mpr ⟨p, listed, named⟩)

theorem typesNamed_wellFormed {name : String} {properties : List (Property Ty)}
    (wf : ∀ p ∈ properties, p.ty.WellFormed) : ∀ ty ∈ typesNamed name properties, ty.WellFormed := by
  intro ty member
  obtain ⟨p, listed, _, rfl⟩ := mem_typesNamed.mp member
  exact wf p listed

/-- A slot stays optional as long as every property of its name is. -/
theorem optional_meetProperty {properties merged : List (Property Ty)} {property : Property Ty}
    (names : (merged.map (·.name)).Nodup)
    (named : ∀ name, name ∈ merged.map (·.name) ↔ name ∈ properties.map (·.name))
    (optional : ∀ p ∈ merged,
      p.optional = true ↔ ∀ q ∈ properties, q.name = p.name → q.optional = true) :
    ∀ p ∈ meetProperty merged property,
      p.optional = true ↔ ∀ q ∈ properties ++ [property], q.name = p.name → q.optional = true := by
  intro p member
  rw [List.forall_mem_append, List.forall_mem_singleton]
  rcases mem_meetProperty names member with ⟨old, other⟩ | ⟨rfl, new⟩ | ⟨first, old, same, rfl⟩
  · rw [optional p old]
    exact ⟨fun all => ⟨all, fun same => absurd same.symm other⟩, fun both => both.1⟩
  · have absent : p.name ∉ properties.map (·.name) := mt (named p.name).mpr new
    constructor
    · intro given
      refine ⟨fun q listed same => absurd ?_ absent, fun _ => given⟩
      rw [← same]
      exact List.mem_map_of_mem listed
    · intro both
      exact both.2 rfl
  · have known := optional first old
    rw [same] at known
    show (first.optional && property.optional) = true ↔ _
    rw [Bool.and_eq_true, known]
    exact ⟨fun both => ⟨both.1, fun _ => both.2⟩, fun both => ⟨both.1, both.2 rfl⟩⟩

/-- One more property keeps the description of the merged slots. -/
theorem Meets.snoc {properties merged : List (Property Ty)} {property : Property Ty}
    (wf : ∀ p ∈ properties, p.ty.WellFormed) (wfMerged : ∀ p ∈ merged, p.ty.WellFormed)
    (wfProperty : property.ty.WellFormed) (meets : Meets properties merged) :
    Meets (properties ++ [property]) (meetProperty merged property) where
  names := (meetProperty_wellFormed meets.names wfMerged wfProperty).1
  named := by
    intro name
    have known := meets.named name
    rw [named_meetProperty, List.map_append, List.map_append, List.mem_append, List.mem_append, known]
  types := by
    intro p member
    rw [typesNamed_snoc]
    rcases mem_meetProperty meets.names member with ⟨old, other⟩ | ⟨rfl, new⟩ | ⟨first, old, named, rfl⟩
    · rw [if_neg (Ne.symm other), List.append_nil]
      exact meets.types p old
    · have absent : p.name ∉ properties.map (·.name) := mt (meets.named p.name).mpr new
      rw [typesNamed_eq_nil absent, if_pos rfl]
      exact Ty.intersection_singleton wfProperty
    · have present : property.name ∈ properties.map (·.name) := by
        rw [← named, ← meets.named]
        exact List.mem_map_of_mem old
      have known := meets.types first old
      rw [named] at known
      rw [show (first.meet property).name = property.name from rfl, if_pos rfl]
      exact Ty.same_intersection_snoc (typesNamed_wellFormed wf) (typesNamed_ne_nil present)
        (wfMerged first old) wfProperty known
  optional := optional_meetProperty meets.names meets.named meets.optional

theorem meets_foldl {properties : List (Property Ty)} (wf : ∀ p ∈ properties, p.ty.WellFormed) :
    Meets properties (properties.foldl meetProperty []) := by
  induction properties using List.reverseRecOn with
  | nil =>
      refine ⟨List.nodup_nil, fun _ => Iff.rfl, ?_, ?_⟩
      · intro p member
        cases member
      · intro p member
        cases member
  | append_singleton properties property ih =>
      obtain ⟨wfFront, wfLast⟩ := List.forall_mem_append.mp wf
      have noNames : (([] : List (Property Ty)).map (·.name)).Nodup := List.nodup_nil
      have wfMerged := (foldl_meetProperty_wellFormed noNames (fun p member => by cases member) wfFront).2
      rw [List.foldl_append]
      exact (ih wfFront).snoc wfFront wfMerged (wfLast property (.head _))

end Slots

section Signatures

/-- The index signature with the types of all, and with the key of one of them. -/
structure MeetsIndex (signatures : List (IndexSignature Ty)) (merged : Option (IndexSignature Ty)) :
    Prop where
  absent : merged = none ↔ signatures = []
  value : ∀ i, merged = some i → i.value.Same (.intersection (signatures.map (·.value)))
  key : ∀ i, merged = some i → ∃ j ∈ signatures, i.key = j.key

theorem meetIndex_none (index : Option (IndexSignature Ty)) : meetIndex index none = index := by
  cases index <;> rfl

theorem MeetsIndex.snoc {signatures : List (IndexSignature Ty)}
    {merged : Option (IndexSignature Ty)} {signature : IndexSignature Ty}
    (wf : ∀ i ∈ signatures, i.value.WellFormed) (wfMerged : ∀ i, merged = some i → i.value.WellFormed)
    (wfValue : signature.value.WellFormed) (meets : MeetsIndex signatures merged) :
    MeetsIndex (signatures ++ [signature]) (meetIndex merged (some signature)) := by
  cases merged with
  | none =>
      have nothing : signatures = [] := meets.absent.mp rfl
      rw [nothing]
      refine ⟨by simp [meetIndex], ?_, ?_⟩
      · intro i found
        cases found
        exact Ty.intersection_singleton wfValue
      · intro i found
        cases found
        exact ⟨signature, .head _, rfl⟩
  | some first =>
      have present : signatures ≠ [] := by
        intro nothing
        cases meets.absent.mpr nothing
      refine ⟨by simp [meetIndex], ?_, ?_⟩
      · intro i found
        cases found
        rw [List.map_append, List.map_singleton]
        have wfValues : ∀ ty ∈ signatures.map (·.value), ty.WellFormed := by
          intro ty member
          obtain ⟨i, listed, rfl⟩ := List.mem_map.mp member
          exact wf i listed
        exact Ty.same_intersection_snoc wfValues (by simpa using present) (wfMerged first rfl) wfValue
          (meets.value first rfl)
      · intro i found
        cases found
        obtain ⟨j, listed, same⟩ := meets.key first rfl
        exact ⟨j, List.mem_append_left _ listed, same⟩

end Signatures

section Folds

variable {shapes : List (Shape Ty)}

theorem foldl_meet_properties (shape : Shape Ty) :
    (shapes.foldl Shape.meet shape).properties =
      (shapes.flatMap (·.properties)).foldl meetProperty shape.properties := by
  induction shapes generalizing shape with
  | nil => rfl
  | cons other others ih => rw [List.foldl_cons, ih, List.flatMap_cons, List.foldl_append, Shape.meet]

theorem foldl_meet_className : (shapes.foldl Shape.meet {}).className = none := by
  induction shapes using List.reverseRecOn with
  | nil => rfl
  | append_singleton others other _ =>
      rw [List.foldl_append]
      rfl

variable (wf : ∀ s ∈ shapes, (Ty.object s).WellFormed)

include wf

theorem wellFormed_foldl_meet : (Ty.object (shapes.foldl Shape.meet {})).WellFormed := by
  have wfEmpty : (Ty.object {}).WellFormed := by decide
  exact foldl_meet_wellFormed wfEmpty wf

theorem wellFormed_slots : ∀ p ∈ shapes.flatMap (·.properties), p.ty.WellFormed := by
  intro p member
  obtain ⟨s, listed, inside⟩ := List.mem_flatMap.mp member
  exact (wf s listed).property inside

theorem wellFormed_values :
    ∀ ty ∈ (shapes.filterMap (·.index)).map (·.value), ty.WellFormed := by
  intro ty member
  obtain ⟨i, listed, rfl⟩ := List.mem_map.mp member
  obtain ⟨s, inside, index⟩ := List.mem_filterMap.mp listed
  exact (wf s inside).indexValue index

theorem meets_foldl_meet :
    Meets (shapes.flatMap (·.properties)) (shapes.foldl Shape.meet {}).properties := by
  rw [foldl_meet_properties]
  exact meets_foldl (wellFormed_slots wf)

theorem meetsIndex_foldl_meet :
    MeetsIndex (shapes.filterMap (·.index)) (shapes.foldl Shape.meet {}).index := by
  induction shapes using List.reverseRecOn with
  | nil => exact ⟨by simp, fun i found => (nomatch found), fun i found => (nomatch found)⟩
  | append_singleton others other ih =>
      obtain ⟨wfFront, wfLast⟩ := List.forall_mem_append.mp wf
      have wfMerged := wellFormed_foldl_meet wfFront
      have known := ih wfFront
      rw [List.foldl_append, List.filterMap_append, List.filterMap_cons, List.filterMap_nil]
      show MeetsIndex _ (meetIndex (others.foldl Shape.meet {}).index other.index)
      cases found : other.index with
      | none => simpa [meetIndex_none] using known
      | some signature =>
          refine known.snoc ?_ (fun i => wfMerged.indexValue)
            ((wfLast other (.head _)).indexValue found)
          exact fun i member => wellFormed_values wfFront i.value (List.mem_map_of_mem member)

end Folds

section Options

variable {α β : Type} {related : α → β → Prop} {x : Option α} {y : Option β}

theorem exists_of_rel (both : Option.Rel related x y) {a : α} (found : x = some a) :
    ∃ b, y = some b ∧ related a b := by
  cases both with
  | none => cases found
  | some pair =>
      cases found
      exact ⟨_, rfl, pair⟩

theorem exists_of_rel_right (both : Option.Rel related x y) {b : β} (found : y = some b) :
    ∃ a, x = some a ∧ related a b := by
  cases both with
  | none => cases found
  | some pair =>
      cases found
      exact ⟨_, rfl, pair⟩

end Options

section Alike

/-- A shape with `any` for the key of its index signature. -/
def Shape.keyless (shape : Shape Ty) : Shape Ty :=
  { shape with index := shape.index.map fun i => ⟨.any, i.value⟩ }

/-- Two shapes are equal up to the keys of their index signatures. -/
def Shape.Alike (s t : Shape Ty) : Prop := (Ty.object s.keyless).Same (.object t.keyless)

instance (s t : Shape Ty) : Decidable (s.Alike t) :=
  inferInstanceAs (Decidable ((Ty.object s.keyless).Same (.object t.keyless)))

/-- Two shapes are equal. -/
abbrev Shape.Equal (s t : Shape Ty) : Prop := (Ty.object s).Same (.object t)

namespace Shape

variable {s t : Shape Ty}

theorem alike_iff (s t : Shape Ty) :
    s.Alike t ↔ s.properties.length = t.properties.length ∧
      Covers Ty.SameProperty s.properties t.properties ∧
        Option.Rel (fun i j : IndexSignature Ty => i.value.Same j.value) s.index t.index ∧
          s.className = t.className := by
  have index : Option.Rel (fun i j : IndexSignature Ty => i.key.Same j.key ∧ i.value.Same j.value)
      s.keyless.index t.keyless.index ↔
        Option.Rel (fun i j : IndexSignature Ty => i.value.Same j.value) s.index t.index := by
    cases own : s.index with
    | none => cases other : t.index <;> simp [keyless, own, other]
    | some i =>
        cases other : t.index with
        | none => simp [keyless, own, other]
        | some j =>
            simp only [keyless, own, other, Option.map_some, Option.rel_some_some]
            exact ⟨fun both => both.2, fun value => ⟨Ty.same_self _, value⟩⟩
  rw [Alike, Ty.same_object_iff, index]
  rfl

theorem Alike.of_equal (equal : s.Equal t) : s.Alike t := by
  obtain ⟨counts, properties, index, className⟩ := (Ty.same_object_iff s t).mp equal
  exact (alike_iff s t).mpr ⟨counts, properties, Ty.rel_imp (fun i j both => both.2) index, className⟩

theorem Alike.equal (alike : s.Alike t)
    (keys : ∀ i, s.index = some i → ∀ j, t.index = some j → i.key.Same j.key) : s.Equal t := by
  obtain ⟨counts, properties, index, className⟩ := (alike_iff s t).mp alike
  refine (Ty.same_object_iff s t).mpr ⟨counts, properties, ?_, className⟩
  cases own : s.index with
  | none =>
      cases other : t.index with
      | none => exact .none
      | some j =>
          obtain ⟨i, impossible, _⟩ := exists_of_rel_right index other
          rw [own] at impossible
          cases impossible
  | some i =>
      obtain ⟨j, other, value⟩ := exists_of_rel index own
      rw [other]
      exact .some ⟨keys i own j other, value⟩

theorem keyless_wellFormed (wf : (Ty.object s).WellFormed) : (Ty.object s.keyless).WellFormed := by
  refine .object wf.node (fun _ => wf.property) ?_
  intro i found
  obtain ⟨own, declared, rfl⟩ := Option.map_eq_some_iff.mp found
  have wfValue := wf.indexValue declared
  exact ⟨.primitive .any, wfValue⟩

theorem Alike.symm (wfS : (Ty.object s).WellFormed) (wfT : (Ty.object t).WellFormed)
    (alike : s.Alike t) : t.Alike s :=
  Ty.same_symm (keyless_wellFormed wfS) (keyless_wellFormed wfT) alike

theorem Alike.trans {u : Shape Ty} (wfS : (Ty.object s).WellFormed) (wfT : (Ty.object t).WellFormed)
    (wfU : (Ty.object u).WellFormed) (one : s.Alike t) (two : t.Alike u) : s.Alike u :=
  Ty.same_trans (keyless_wellFormed wfS) (keyless_wellFormed wfT) (keyless_wellFormed wfU) one two

end Shape

section Reordered

variable {ss ts : List (Shape Ty)} (wfS : ∀ s ∈ ss, (Ty.object s).WellFormed)
  (wfT : ∀ t ∈ ts, (Ty.object t).WellFormed) (forth : Covers Shape.Equal ss ts)
  (back : Covers (fun t s => Shape.Equal s t) ts ss)

include forth in
theorem covers_properties :
    Covers Ty.SameProperty (ss.flatMap (·.properties)) (ts.flatMap (·.properties)) := by
  apply forth.flatMap
  intro s _ t _ equal
  exact ((Ty.same_object_iff s t).mp equal).2.1

include wfS back in
theorem covers_properties_back :
    Covers (fun q p => Ty.SameProperty p q) (ts.flatMap (·.properties)) (ss.flatMap (·.properties)) := by
  apply back.flatMap
  intro t _ s memberS equal
  obtain ⟨counts, properties, _⟩ := (Ty.same_object_iff s t).mp equal
  exact Covers.back properties (Ty.properties_single (wfS s memberS).node) counts

theorem covers_index {related : Shape Ty → Shape Ty → Prop}
    {paired : IndexSignature Ty → IndexSignature Ty → Prop} {ss ts : List (Shape Ty)}
    (covers : Covers related ss ts)
    (respects : ∀ s t, related s t → ∀ i, s.index = some i → ∃ j, t.index = some j ∧ paired i j) :
    Covers paired (ss.filterMap (·.index)) (ts.filterMap (·.index)) := by
  intro i member
  obtain ⟨s, listed, found⟩ := List.mem_filterMap.mp member
  obtain ⟨t, inside, pair⟩ := covers s listed
  obtain ⟨j, other, same⟩ := respects s t pair i found
  exact ⟨j, List.mem_filterMap.mpr ⟨t, inside, other⟩, same⟩

theorem Shape.Equal.index {s t : Shape Ty} (equal : s.Equal t) :
    Option.Rel (fun i j : IndexSignature Ty => i.key.Same j.key ∧ i.value.Same j.value)
      s.index t.index := ((Ty.same_object_iff s t).mp equal).2.2.1

include forth in
theorem covers_signatures :
    Covers (fun i j : IndexSignature Ty => i.key.Same j.key ∧ i.value.Same j.value)
      (ss.filterMap (·.index)) (ts.filterMap (·.index)) := by
  exact covers_index forth fun s t equal i found => exists_of_rel equal.index found

include back in
theorem covers_signatures_back :
    Covers (fun j i : IndexSignature Ty => i.key.Same j.key ∧ i.value.Same j.value)
      (ts.filterMap (·.index)) (ss.filterMap (·.index)) := by
  exact covers_index back fun t s equal j found => exists_of_rel_right equal.index found

include forth back in
theorem indexValues_same : Ty.SameSet ((ss.filterMap (·.index)).map (·.value))
    ((ts.filterMap (·.index)).map (·.value)) := by
  constructor
  · intro ty member
    obtain ⟨i, listed, rfl⟩ := List.mem_map.mp member
    obtain ⟨j, inside, pair⟩ := covers_signatures forth i listed
    exact ⟨j.value, List.mem_map_of_mem inside, pair.2⟩
  · intro ty member
    obtain ⟨j, listed, rfl⟩ := List.mem_map.mp member
    obtain ⟨i, inside, pair⟩ := covers_signatures_back back j listed
    exact ⟨i.value, List.mem_map_of_mem inside, pair.2⟩

include wfS forth back

theorem typesNamed_same (name : String) :
    Ty.SameSet (typesNamed name (ss.flatMap (·.properties)))
      (typesNamed name (ts.flatMap (·.properties))) := by
  constructor
  · intro ty member
    obtain ⟨p, listed, named, rfl⟩ := mem_typesNamed.mp member
    obtain ⟨q, inside, same⟩ := covers_properties forth p listed
    exact ⟨q.ty, mem_typesNamed.mpr ⟨q, inside, same.name.symm.trans named, rfl⟩, same.ty⟩
  · intro ty member
    obtain ⟨q, listed, named, rfl⟩ := mem_typesNamed.mp member
    obtain ⟨p, inside, same⟩ := covers_properties_back wfS back q listed
    exact ⟨p.ty, mem_typesNamed.mpr ⟨p, inside, same.name.trans named, rfl⟩, same.ty⟩

include wfT

theorem mergedNames_same (name : String) :
    name ∈ (ss.foldl Shape.meet {}).properties.map (·.name) ↔
      name ∈ (ts.foldl Shape.meet {}).properties.map (·.name) := by
  rw [(meets_foldl_meet wfS).named, (meets_foldl_meet wfT).named]
  constructor
  · intro member
    obtain ⟨p, listed, rfl⟩ := List.mem_map.mp member
    obtain ⟨q, inside, same⟩ := covers_properties forth p listed
    exact List.mem_map.mpr ⟨q, inside, same.name.symm⟩
  · intro member
    obtain ⟨q, listed, rfl⟩ := List.mem_map.mp member
    obtain ⟨p, inside, same⟩ := covers_properties_back wfS back q listed
    exact List.mem_map.mpr ⟨p, inside, same.name⟩

theorem mergedProperty_same {p q : Property Ty} (memberP : p ∈ (ss.foldl Shape.meet {}).properties)
    (memberQ : q ∈ (ts.foldl Shape.meet {}).properties) (named : p.name = q.name) :
    Ty.SameProperty p q := by
  have meetsS := meets_foldl_meet wfS
  have meetsT := meets_foldl_meet wfT
  have left := meetsS.types p memberP
  have right := meetsT.types q memberQ
  rw [← named] at right
  refine ⟨named, ?_, ?_⟩
  · exact Ty.same_of_intersections (typesNamed_wellFormed (wellFormed_slots wfS))
      (typesNamed_wellFormed (wellFormed_slots wfT)) (typesNamed_same wfS forth back p.name)
      ((wellFormed_foldl_meet wfS).property memberP) ((wellFormed_foldl_meet wfT).property memberQ)
      left right
  · rw [Bool.eq_iff_iff, meetsS.optional p memberP, meetsT.optional q memberQ, named]
    constructor
    · intro all other listed same
      obtain ⟨own, inside, pair⟩ := covers_properties_back wfS back other listed
      rw [← pair.optional]
      exact all own inside (pair.name.trans same)
    · intro all own listed same
      obtain ⟨other, inside, pair⟩ := covers_properties forth own listed
      rw [pair.optional]
      exact all other inside (pair.name.symm.trans same)

theorem mergedIndex_same :
    Option.Rel (fun i j : IndexSignature Ty => i.value.Same j.value)
      (ss.foldl Shape.meet {}).index (ts.foldl Shape.meet {}).index := by
  have meetsS := meetsIndex_foldl_meet wfS
  have meetsT := meetsIndex_foldl_meet wfT
  have covers := covers_signatures forth
  have coversBack := covers_signatures_back back
  have values := indexValues_same forth back
  cases own : (ss.foldl Shape.meet {}).index with
  | none =>
      cases other : (ts.foldl Shape.meet {}).index with
      | none => exact .none
      | some j =>
          obtain ⟨k, listed, _⟩ := meetsT.key j other
          obtain ⟨i, impossible, _⟩ := coversBack k listed
          rw [meetsS.absent.mp own] at impossible
          cases impossible
  | some i =>
      cases other : (ts.foldl Shape.meet {}).index with
      | none =>
          obtain ⟨k, listed, _⟩ := meetsS.key i own
          obtain ⟨j, impossible, _⟩ := covers k listed
          rw [meetsT.absent.mp other] at impossible
          cases impossible
      | some j =>
          exact .some (Ty.same_of_intersections (wellFormed_values wfS) (wellFormed_values wfT) values
            ((wellFormed_foldl_meet wfS).indexValue own)
            ((wellFormed_foldl_meet wfT).indexValue other) (meetsS.value i own) (meetsT.value j other))

/-- Merging the same shapes in another order gives the same slots. -/
theorem foldl_meet_alike : (ss.foldl Shape.meet {}).Alike (ts.foldl Shape.meet {}) := by
  have names := mergedNames_same wfS wfT forth back
  refine (Shape.alike_iff _ _).mpr ⟨?_, ?_, mergedIndex_same wfS wfT forth back, ?_⟩
  · have permuted := (List.perm_ext_iff_of_nodup (wellFormed_foldl_meet wfS).node
      (wellFormed_foldl_meet wfT).node).mpr names
    simpa using permuted.length_eq
  · intro p memberP
    obtain ⟨q, memberQ, named⟩ := List.mem_map.mp ((names p.name).mp (List.mem_map_of_mem memberP))
    exact ⟨q, memberQ, mergedProperty_same wfS wfT forth back memberP memberQ named.symm⟩
  · rw [foldl_meet_className, foldl_meet_className]

/-- If the index signatures have equal keys, it gives the same shape. -/
theorem foldl_meet_equal
    (keys : ∀ i ∈ ts.filterMap (·.index), ∀ j ∈ ts.filterMap (·.index), i.key.Same j.key) :
    (ss.foldl Shape.meet {}).Equal (ts.foldl Shape.meet {}) := by
  refine (foldl_meet_alike wfS wfT forth back).equal fun i own j other => ?_
  have wfI := (wellFormed_foldl_meet wfS).indexKey own
  obtain ⟨k, listed, keyK⟩ := (meetsIndex_foldl_meet wfS).key i own
  obtain ⟨l, found, keyL⟩ := (meetsIndex_foldl_meet wfT).key j other
  obtain ⟨n, inside, pair⟩ := covers_signatures forth k listed
  rw [keyK] at wfI ⊢
  have wfN := wfI.of_same pair.1
  have between := keys n inside l found
  rw [keyL]
  exact Ty.same_trans wfI wfN (wfN.of_same between) pair.1 between

end Reordered

end Alike

theorem Ty.exists_equal_shape {a b : Ty} (equal : a.Same b) {s : Shape Ty}
    (shaped : a.asShape? = some s) : ∃ t, b.asShape? = some t ∧ s.Equal t := by
  cases Ty.sameNode_of_same equal with
  | object =>
      cases shaped
      exact ⟨_, rfl, equal⟩
  | record keys values =>
      cases shaped
      refine ⟨_, rfl, (Ty.same_object_iff _ _).mpr ⟨rfl, ?_, .some ⟨keys, values⟩, rfl⟩⟩
      intro p member
      cases member
  | _ => cases shaped

namespace AliasMap

/-- The index signatures that are merged. -/
def signatures (aliases : AliasMap) (ty : Ty) : List (IndexSignature Ty) :=
  ((aliases.leaves ty).filterMap Ty.asShape?).filterMap (·.index)

/-- All index signatures that are merged have equal keys. -/
def OneKey (aliases : AliasMap) (ty : Ty) : Prop :=
  ∀ i ∈ aliases.signatures ty, ∀ j ∈ aliases.signatures ty, i.key.Same j.key

instance (aliases : AliasMap) (ty : Ty) : Decidable (aliases.OneKey ty) :=
  inferInstanceAs (Decidable (∀ i ∈ aliases.signatures ty, ∀ j ∈ aliases.signatures ty, i.key.Same j.key))

variable {aliases : AliasMap}

theorem merge_of_shaped {ty : Ty} (shaped : ∀ leaf ∈ aliases.leaves ty, ∃ s, leaf.asShape? = some s) :
    aliases.merge ty = .shape (((aliases.leaves ty).filterMap Ty.asShape?).foldl Shape.meet {}) := by
  have noAny : (aliases.leaves ty).any Ty.isAny = false := by
    rw [List.any_eq_false]
    intro leaf member
    obtain ⟨s, found⟩ := shaped leaf member
    cases leaf <;> first | exact Bool.noConfusion | cases found
  have allShaped : (aliases.leaves ty).any (fun leaf => leaf.asShape?.isNone) = false := by
    rw [List.any_eq_false]
    intro leaf member
    obtain ⟨s, found⟩ := shaped leaf member
    simp [found]
  rw [merge, mergeLeaves, noAny, allShaped]
  rfl

section Reordered

variable (wf : aliases.WellFormed) {a b : Ty} (wfA : a.WellFormed) (equal : a.Same b)
  {merged : Shape Ty} (merges : aliases.merge a = .shape merged)

include wf wfA equal merges

theorem leaves_shaped : ∀ leaf ∈ aliases.leaves b, ∃ s, leaf.asShape? = some s := by
  intro other member
  obtain ⟨leaf, listed, same⟩ := leaves_back wfA equal wf other member
  obtain ⟨s, shaped⟩ := shaped_of_merge merges leaf listed
  obtain ⟨t, found, _⟩ := Ty.exists_equal_shape same shaped
  exact ⟨t, found⟩

/-- The merged shapes of equal types are alike, and equal if there is only one key to choose from. -/
theorem merge_same : ∃ other, aliases.merge b = .shape other ∧ merged.Alike other ∧
    (aliases.OneKey b → merged.Equal other) := by
  have wfShapes {ty : Ty} (wfTy : ty.WellFormed) :
      ∀ s ∈ (aliases.leaves ty).filterMap Ty.asShape?, (Ty.object s).WellFormed := by
    intro s member
    obtain ⟨leaf, listed, shaped⟩ := List.mem_filterMap.mp member
    exact (leaves_wellFormed wf wfTy leaf listed).asShape shaped
  have forth : Covers Shape.Equal ((aliases.leaves a).filterMap Ty.asShape?)
      ((aliases.leaves b).filterMap Ty.asShape?) := by
    intro s member
    obtain ⟨leaf, listed, shaped⟩ := List.mem_filterMap.mp member
    obtain ⟨other, inside, same⟩ := leaves_forth wfA equal leaf listed
    obtain ⟨t, found, shapes⟩ := Ty.exists_equal_shape same shaped
    exact ⟨t, List.mem_filterMap.mpr ⟨other, inside, found⟩, shapes⟩
  have back : Covers (fun t s => Shape.Equal s t) ((aliases.leaves b).filterMap Ty.asShape?)
      ((aliases.leaves a).filterMap Ty.asShape?) := by
    intro t member
    obtain ⟨other, listed, found⟩ := List.mem_filterMap.mp member
    obtain ⟨leaf, inside, same⟩ := leaves_back wfA equal wf other listed
    obtain ⟨s, shaped⟩ := shaped_of_merge merges leaf inside
    obtain ⟨u, again, shapes⟩ := Ty.exists_equal_shape same shaped
    rw [found] at again
    cases again
    exact ⟨s, List.mem_filterMap.mpr ⟨leaf, inside, shaped⟩, shapes⟩
  have wfS := wfShapes wfA
  have wfT := wfShapes (wfA.of_same equal)
  rw [merged_eq merges]
  exact ⟨_, merge_of_shaped (leaves_shaped wf wfA equal merges), foldl_meet_alike wfS wfT forth back,
    foldl_meet_equal wfS wfT forth back⟩

end Reordered

end AliasMap

end StructuralTypes
