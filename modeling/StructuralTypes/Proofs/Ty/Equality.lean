import Mathlib.Data.List.Forall2
import StructuralTypes.Proofs.Ty.Children
import StructuralTypes.Ty.Same

set_option autoImplicit false

namespace StructuralTypes

namespace Number

theorem same_iff (a b : Number) : a.same b = true ↔ a.canonical = b.canonical := by
  simp [same]

end Number

namespace Literal

theorem same_self (a : Literal) : a.same a = true := by
  cases a <;> simp [same, Number.same_iff]

theorem same_symm {a b : Literal} (equal : a.same b = true) : b.same a = true := by
  cases a <;> cases b <;> simp_all [same, Number.same_iff]

theorem same_trans {a b c : Literal} (first : a.same b = true) (second : b.same c = true) :
    a.same c = true := by
  cases a <;> cases b <;> cases c <;> simp_all [same, Number.same_iff]

end Literal

namespace Ty

/-- Structural equality as a relation. -/
abbrev Same (a b : Ty) : Prop := a.same b = true

theorem sameEach_iff (as bs : List Ty) : sameEach as bs = true ↔ List.Forall₂ Same as bs := by
  induction as generalizing bs with
  | nil => cases bs <;> simp [sameEach]
  | cons a as ih => cases bs <;> simp [sameEach, ih]

theorem sameAmong_iff (as bs : List Ty) :
    sameAmong as bs = true ↔ ∀ a ∈ as, ∃ b ∈ bs, Same a b := by
  induction as with
  | nil => simp [sameAmong]
  | cons a as ih => simp [sameAmong, ih]

/-- Two properties that equality of shapes matches with each other. -/
structure SameProperty (p q : Property Ty) : Prop where
  name : p.name = q.name
  ty : Same p.ty q.ty
  optional : p.optional = q.optional

theorem sameProperties_iff (ps qs : List (Property Ty)) :
    sameProperties ps qs = true ↔ ∀ p ∈ ps, ∃ q ∈ qs, SameProperty p q := by
  have found (p : Property Ty) :
      (∃ q ∈ qs, (q.name = p.name ∧ p.ty.same q.ty = true) ∧ p.optional = q.optional) ↔
        ∃ q ∈ qs, SameProperty p q := by
    constructor
    · rintro ⟨q, member, ⟨name, ty⟩, optional⟩
      exact ⟨q, member, name.symm, ty, optional⟩
    · rintro ⟨q, member, equal⟩
      exact ⟨q, member, ⟨equal.name.symm, equal.ty⟩, equal.optional⟩
  induction ps with
  | nil => simp [sameProperties]
  | cons p ps ih => simp [sameProperties, ih, ← found]

theorem sameIndex_iff (i j : Option (IndexSignature Ty)) :
    sameIndex i j = true ↔
      Option.Rel (fun a b : IndexSignature Ty => Same a.key b.key ∧ Same a.value b.value) i j := by
  cases i <;> cases j <;> simp [sameIndex]

theorem sameTypeParams_iff (ts us : List (TypeParam Ty)) :
    sameTypeParams ts us = true ↔
      List.Forall₂ (fun t u => t.name = u.name ∧ Option.Rel Same t.constraint u.constraint) ts us := by
  induction ts generalizing us with
  | nil => cases us <;> simp [sameTypeParams]
  | cons t ts ih =>
      obtain ⟨m, c⟩ := t
      cases us with
      | nil => cases c <;> simp [sameTypeParams]
      | cons u us =>
          obtain ⟨n, d⟩ := u
          cases c <;> cases d <;> simp [sameTypeParams, ih, and_assoc]

theorem same_object_iff (s t : Shape Ty) :
    Same (object s) (object t) ↔ s.properties.length = t.properties.length ∧
      (∀ p ∈ s.properties, ∃ q ∈ t.properties, SameProperty p q) ∧
      Option.Rel (fun a b : IndexSignature Ty => Same a.key b.key ∧ Same a.value b.value)
        s.index t.index ∧ s.className = t.className := by
  obtain ⟨ps, i, c, _⟩ := s
  obtain ⟨qs, j, d, _⟩ := t
  simp [Same, same, sameProperties_iff, sameIndex_iff, and_assoc]

theorem same_function_iff (s t : Signature Ty) :
    Same (function s) (function t) ↔
      List.Forall₂ (fun t u => t.name = u.name ∧ Option.Rel Same t.constraint u.constraint)
        s.typeParams t.typeParams ∧
      List.Forall₂ Same s.params t.params ∧ Same s.result t.result := by
  obtain ⟨ts, ps, r⟩ := s
  obtain ⟨us, qs, r'⟩ := t
  simp [Same, same, sameTypeParams_iff, sameEach_iff, and_assoc]

/-- Two types have the same outermost constructor and equal parts: members and properties in whatever
order, all other parts in place. -/
inductive SameNode : Ty → Ty → Prop
  | primitive (kind : Primitive) : SameNode (.primitive kind) (.primitive kind)
  | literal {a b : Literal} (value : a.same b = true) : SameNode (.literal a) (.literal b)
  | array {a b : Ty} (element : Same a b) : SameNode (.array a) (.array b)
  | tuple {as bs : List Ty} (elements : List.Forall₂ Same as bs) : SameNode (.tuple as) (.tuple bs)
  | object {s t : Shape Ty} (counts : s.properties.length = t.properties.length)
    (properties : ∀ p ∈ s.properties, ∃ q ∈ t.properties, SameProperty p q)
    (index : Option.Rel (fun a b : IndexSignature Ty => Same a.key b.key ∧ Same a.value b.value)
      s.index t.index)
    (className : s.className = t.className) : SameNode (.object s) (.object t)
  | record {key key' value value' : Ty} (keys : Same key key') (values : Same value value') :
    SameNode (.record key value) (.record key' value')
  | unionOf {as bs : List Ty} (counts : as.length = bs.length)
    (among : ∀ a ∈ as, ∃ b ∈ bs, Same a b) : SameNode (.unionOf as) (.unionOf bs)
  | intersectionOf {as bs : List Ty} (counts : as.length = bs.length)
    (among : ∀ a ∈ as, ∃ b ∈ bs, Same a b) : SameNode (.intersectionOf as) (.intersectionOf bs)
  | anyFunction : SameNode .anyFunction .anyFunction
  | function {s t : Signature Ty}
    (typeParams : List.Forall₂ (fun t u => t.name = u.name ∧ Option.Rel Same t.constraint u.constraint)
      s.typeParams t.typeParams)
    (params : List.Forall₂ Same s.params t.params) (result : Same s.result t.result) :
    SameNode (.function s) (.function t)
  | ref (name : String) : SameNode (.ref name) (.ref name)
  | keyof {a b : Ty} (subject : Same a b) : SameNode (.keyof a) (.keyof b)
  | predicate (parameter : String) {a b : Ty} (guard : Same a b) :
    SameNode (.predicate parameter a) (.predicate parameter b)

theorem same_of_sameNode {a b : Ty} (node : SameNode a b) : Same a b := by
  cases node with
  | primitive kind => simp [Same, same]
  | literal value => exact value
  | array element => exact element
  | tuple elements => exact (sameEach_iff _ _).mpr elements
  | object counts properties index className =>
      exact (same_object_iff _ _).mpr ⟨counts, properties, index, className⟩
  | record keys values => simpa [Same, same] using And.intro keys values
  | unionOf counts among => simpa [Same, same, sameAmong_iff] using And.intro counts among
  | intersectionOf counts among => simpa [Same, same, sameAmong_iff] using And.intro counts among
  | anyFunction => rfl
  | function typeParams params result =>
      exact (same_function_iff _ _).mpr ⟨typeParams, params, result⟩
  | ref name => simp [Same, same]
  | keyof subject => exact subject
  | predicate parameter guard => simpa [Same, same] using guard

/-- Equality is inverted here once for all constructors. -/
theorem sameNode_of_same {a b : Ty} (equal : Same a b) : SameNode a b := by
  cases a with
  | primitive kind =>
      cases b with
      | primitive other =>
          obtain rfl : kind = other := by simpa [Same, same] using equal
          exact .primitive kind
      | _ => cases equal
  | literal value =>
      cases b with
      | literal other => exact .literal equal
      | _ => cases equal
  | array element =>
      cases b with
      | array other => exact .array equal
      | _ => cases equal
  | tuple elements =>
      cases b with
      | tuple others => exact .tuple ((sameEach_iff _ _).mp equal)
      | _ => cases equal
  | object s =>
      cases b with
      | object t =>
          obtain ⟨counts, properties, index, className⟩ := (same_object_iff s t).mp equal
          exact .object counts properties index className
      | _ => cases equal
  | record key value =>
      cases b with
      | record key' value' =>
          simp only [Same, same, Bool.and_eq_true] at equal
          exact .record equal.1 equal.2
      | _ => cases equal
  | unionOf members =>
      cases b with
      | unionOf others =>
          simp only [Same, same, Bool.and_eq_true, beq_iff_eq, sameAmong_iff] at equal
          exact .unionOf equal.1 equal.2
      | _ => cases equal
  | intersectionOf members =>
      cases b with
      | intersectionOf others =>
          simp only [Same, same, Bool.and_eq_true, beq_iff_eq, sameAmong_iff] at equal
          exact .intersectionOf equal.1 equal.2
      | _ => cases equal
  | anyFunction =>
      cases b with
      | anyFunction => exact .anyFunction
      | _ => cases equal
  | function s =>
      cases b with
      | function t =>
          obtain ⟨typeParams, params, result⟩ := (same_function_iff s t).mp equal
          exact .function typeParams params result
      | _ => cases equal
  | ref name =>
      cases b with
      | ref other =>
          obtain rfl : name = other := by simpa [Same, same] using equal
          exact .ref name
      | _ => cases equal
  | keyof subject =>
      cases b with
      | keyof other => exact .keyof equal
      | _ => cases equal
  | predicate parameter guard =>
      cases b with
      | predicate parameter' guard' =>
          simp only [Same, same, Bool.and_eq_true, beq_iff_eq] at equal
          obtain ⟨rfl, same⟩ := equal
          exact .predicate parameter same
      | _ => cases equal

section Inversion

variable {ty : Ty}

theorem eq_of_same_primitive {kind : Primitive} (equal : Same (primitive kind) ty) :
    ty = primitive kind := by
  cases sameNode_of_same equal with
  | primitive => rfl

theorem exists_literal_of_same {value : Literal} (equal : Same (literal value) ty) :
    ∃ other, ty = literal other ∧ value.same other = true := by
  cases sameNode_of_same equal with
  | literal value => exact ⟨_, rfl, value⟩

theorem exists_array_of_same {element : Ty} (equal : Same (array element) ty) :
    ∃ other, ty = array other ∧ Same element other := by
  cases sameNode_of_same equal with
  | array element => exact ⟨_, rfl, element⟩

theorem exists_tuple_of_same {elements : List Ty} (equal : Same (tuple elements) ty) :
    ∃ others, ty = tuple others ∧ List.Forall₂ Same elements others := by
  cases sameNode_of_same equal with
  | tuple elements => exact ⟨_, rfl, elements⟩

theorem exists_function_of_same {signature : Signature Ty} (equal : Same (function signature) ty) :
    ∃ other, ty = function other ∧ List.Forall₂ Same signature.params other.params ∧
      Same signature.result other.result := by
  cases sameNode_of_same equal with
  | function typeParams params result => exact ⟨_, rfl, params, result⟩

theorem eq_anyFunction_of_same (equal : Same anyFunction ty) : ty = anyFunction := by
  cases sameNode_of_same equal with
  | anyFunction => rfl

theorem exists_predicate_of_same {parameter : String} {guard : Ty}
    (equal : Same (predicate parameter guard) ty) : ∃ guard', ty = predicate parameter guard' := by
  cases sameNode_of_same equal with
  | predicate parameter guard => exact ⟨_, rfl⟩

end Inversion

theorem same_self (ty : Ty) : Same ty ty := by
  induction ty using childrenInduction with
  | step ty ih =>
      refine same_of_sameNode ?_
      have among (tys : List Ty) (equal : ∀ t ∈ tys, Same t t) : ∀ t ∈ tys, ∃ u ∈ tys, Same t u :=
        fun t member => ⟨t, member, equal t member⟩
      cases ty with
      | primitive kind => exact .primitive kind
      | literal value => exact .literal (Literal.same_self value)
      | array element => exact .array (ih element (.head _))
      | tuple elements => exact .tuple (List.forall₂_same.mpr ih)
      | object shape =>
          refine .object rfl (fun p member => ?_) ?_ rfl
          · exact ⟨p, member, rfl, ih p.ty (property_mem_children member), rfl⟩
          · cases found : shape.index with
            | none => exact .none
            | some index =>
                exact .some ⟨ih _ (indexKey_mem_children found),
                  ih _ (indexValue_mem_children found)⟩
      | record key value => exact .record (ih key (.head _)) (ih value (.tail _ (.head _)))
      | unionOf members => exact .unionOf rfl (among members ih)
      | intersectionOf members => exact .intersectionOf rfl (among members ih)
      | anyFunction => exact .anyFunction
      | function signature =>
          refine .function ?_ ?_ (ih _ (result_mem_children signature))
          · refine List.forall₂_same.mpr fun param member => ⟨rfl, ?_⟩
            cases bound : param.constraint with
            | none => exact .none
            | some constraint => exact .some (ih _ (constraint_mem_children member bound))
          · exact List.forall₂_same.mpr fun param member => ih param (param_mem_children member)
      | ref name => exact .ref name
      | keyof subject => exact .keyof (ih subject (.head _))
      | predicate parameter guard => exact .predicate parameter (ih guard (.head _))

theorem isAmong_iff (ty : Ty) (tys : List Ty) : ty.isAmong tys = true ↔ ∃ t ∈ tys, Same t ty := by
  simp [isAmong]

end Ty

end StructuralTypes
