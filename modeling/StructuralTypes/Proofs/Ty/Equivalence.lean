import StructuralTypes.Proofs.Matching
import StructuralTypes.Proofs.Ty.WellFormed

/-!
Members and properties are compared in one direction only, and one length against the other: that is
enough because the members of a normal node are pairwise different under the very same equality.
-/

set_option autoImplicit false

namespace StructuralTypes.Ty

theorem forall₂_symm_of_mem {α : Type} {related turned : α → α → Prop} {as bs : List α}
    (turn : ∀ a ∈ as, ∀ b ∈ bs, related a b → turned b a) (each : List.Forall₂ related as bs) :
    List.Forall₂ turned bs as := by
  induction each with
  | nil => exact .nil
  | @cons a b as bs first rest ih =>
      refine .cons (turn a List.mem_cons_self b List.mem_cons_self first) (ih ?_)
      intro a memberA b memberB
      exact turn a (List.mem_cons_of_mem _ memberA) b (List.mem_cons_of_mem _ memberB)

theorem forall₂_trans_of_mem {α : Type} {related : α → α → Prop} {as bs cs : List α}
    (compose : ∀ a ∈ as, ∀ b ∈ bs, ∀ c ∈ cs, related a b → related b c → related a c)
    (first : List.Forall₂ related as bs) (second : List.Forall₂ related bs cs) :
    List.Forall₂ related as cs := by
  induction first generalizing cs with
  | nil =>
      cases second
      exact .nil
  | @cons a b as bs one rest ih =>
      cases second with
      | @cons _ c _ cs two rest' =>
          refine .cons (compose a List.mem_cons_self b List.mem_cons_self c List.mem_cons_self one two)
            (ih ?_ rest')
          intro a memberA b memberB c memberC
          exact compose a (List.mem_cons_of_mem _ memberA) b (List.mem_cons_of_mem _ memberB) c
            (List.mem_cons_of_mem _ memberC)

theorem rel_symm_of_mem {α : Type} {related turned : α → α → Prop} {i j : Option α}
    (turn : ∀ a, i = some a → ∀ b, j = some b → related a b → turned b a)
    (both : Option.Rel related i j) : Option.Rel turned j i := by
  cases both with
  | some equal => exact .some (turn _ rfl _ rfl equal)
  | none => exact .none

theorem rel_trans_of_mem {α : Type} {related : α → α → Prop} {i j k : Option α}
    (compose : ∀ a, i = some a → ∀ b, j = some b → ∀ c, k = some c →
      related a b → related b c → related a c)
    (first : Option.Rel related i j) (second : Option.Rel related j k) : Option.Rel related i k := by
  cases first with
  | some one =>
      cases second with
      | some two => exact .some (compose _ rfl _ rfl _ rfl one two)
  | none => exact second

/-- What the induction carries: equality of a type with well-formed ones can be turned round and
continued. -/
structure Settled (a : Ty) : Prop where
  symm : ∀ {b : Ty}, b.WellFormed → Same a b → Same b a
  trans : ∀ {b c : Ty}, b.WellFormed → c.WellFormed → Same a b → Same b c → Same a c

section Lists

variable {as bs cs : List Ty}

theorem among_symm (settled : ∀ a ∈ as, Settled a) (wf : ∀ a ∈ as, a.WellFormed)
    (wfOther : ∀ b ∈ bs, b.WellFormed) (apart : as.Pairwise Apart) (counts : as.length = bs.length)
    (among : ∀ a ∈ as, ∃ b ∈ bs, Same a b) : ∀ b ∈ bs, ∃ a ∈ as, Same b a := by
  have single : as.Pairwise fun a c => ∀ b ∈ bs, Same a b → ¬ Same c b := by
    refine List.Pairwise.imp_of_mem ?_ apart
    intro a c memberA memberC different b memberB first second
    have back := (settled c memberC).symm (wfOther b memberB) second
    exact different.1 ((settled a memberA).trans (wfOther b memberB) (wf c memberC) first back)
  intro b member
  obtain ⟨a, inside, equal⟩ := Covers.back among single counts b member
  exact ⟨a, inside, (settled a inside).symm (wfOther b member) equal⟩

theorem among_trans (settled : ∀ a ∈ as, Settled a) (wfMiddle : ∀ b ∈ bs, b.WellFormed)
    (wfLast : ∀ c ∈ cs, c.WellFormed) (first : ∀ a ∈ as, ∃ b ∈ bs, Same a b)
    (second : ∀ b ∈ bs, ∃ c ∈ cs, Same b c) : ∀ a ∈ as, ∃ c ∈ cs, Same a c := by
  intro a memberA
  obtain ⟨b, memberB, equalAB⟩ := first a memberA
  obtain ⟨c, memberC, equalBC⟩ := second b memberB
  exact ⟨c, memberC,
    (settled a memberA).trans (wfMiddle b memberB) (wfLast c memberC) equalAB equalBC⟩

end Lists

section Shapes

/-- A property's partner has its name, and names occur once. -/
theorem properties_single {ps qs : List (Property Ty)} (names : (ps.map (·.name)).Nodup) :
    Covers.Single SameProperty ps qs := by
  refine List.Pairwise.imp ?_ (List.pairwise_map.mp names)
  intro p r different q _ first second
  exact different (first.name.trans second.name.symm)

variable {s t u : Shape Ty}

theorem object_symm (settled : ∀ c ∈ (object s).children, Settled c) (wf : (object s).WellFormed)
    (wfOther : (object t).WellFormed) (equal : Same (object s) (object t)) :
    Same (object t) (object s) := by
  obtain ⟨counts, properties, index, className⟩ := (same_object_iff s t).mp equal
  refine (same_object_iff t s).mpr ⟨counts.symm, ?_, ?_, className.symm⟩
  · intro q member
    obtain ⟨p, inside, same⟩ := Covers.back properties (properties_single wf.node) counts q member
    exact ⟨p, inside, same.name.symm,
      (settled _ (property_mem_children inside)).symm (wfOther.property member) same.ty,
      same.optional.symm⟩
  · refine rel_symm_of_mem ?_ index
    intro i own j other both
    exact ⟨(settled _ (indexKey_mem_children own)).symm (wfOther.indexKey other) both.1,
      (settled _ (indexValue_mem_children own)).symm (wfOther.indexValue other) both.2⟩

theorem object_trans (settled : ∀ c ∈ (object s).children, Settled c)
    (wfMiddle : (object t).WellFormed) (wfLast : (object u).WellFormed)
    (first : Same (object s) (object t)) (second : Same (object t) (object u)) :
    Same (object s) (object u) := by
  obtain ⟨counts, properties, index, className⟩ := (same_object_iff s t).mp first
  obtain ⟨counts', properties', index', className'⟩ := (same_object_iff t u).mp second
  refine (same_object_iff s u).mpr
    ⟨counts.trans counts', ?_, ?_, className.trans className'⟩
  · intro p memberP
    obtain ⟨q, memberQ, equalPQ⟩ := properties p memberP
    obtain ⟨r, memberR, equalQR⟩ := properties' q memberQ
    exact ⟨r, memberR, equalPQ.name.trans equalQR.name,
      (settled _ (property_mem_children memberP)).trans (wfMiddle.property memberQ)
        (wfLast.property memberR) equalPQ.ty equalQR.ty,
      equalPQ.optional.trans equalQR.optional⟩
  · refine rel_trans_of_mem ?_ index index'
    intro i own j middle k last one two
    exact ⟨(settled _ (indexKey_mem_children own)).trans (wfMiddle.indexKey middle)
        (wfLast.indexKey last) one.1 two.1,
      (settled _ (indexValue_mem_children own)).trans (wfMiddle.indexValue middle)
        (wfLast.indexValue last) one.2 two.2⟩

end Shapes

section Signatures

variable {s t u : Signature Ty}

theorem function_symm (settled : ∀ c ∈ (function s).children, Settled c)
    (wfOther : (function t).WellFormed) (equal : Same (function s) (function t)) :
    Same (function t) (function s) := by
  obtain ⟨typeParams, params, result⟩ := (same_function_iff s t).mp equal
  refine (same_function_iff t s).mpr ⟨?_, ?_, ?_⟩
  · refine forall₂_symm_of_mem ?_ typeParams
    rintro p memberP q memberQ ⟨name, constraint⟩
    refine ⟨name.symm, rel_symm_of_mem ?_ constraint⟩
    intro c bound d bound'
    exact (settled c (constraint_mem_children memberP bound)).symm
      (wfOther.child (constraint_mem_children memberQ bound'))
  · refine forall₂_symm_of_mem ?_ params
    intro p memberP q memberQ
    exact (settled p (param_mem_children memberP)).symm (wfOther.child (param_mem_children memberQ))
  · exact (settled _ (result_mem_children s)).symm (wfOther.child (result_mem_children t)) result

theorem function_trans (settled : ∀ c ∈ (function s).children, Settled c)
    (wfMiddle : (function t).WellFormed) (wfLast : (function u).WellFormed)
    (first : Same (function s) (function t)) (second : Same (function t) (function u)) :
    Same (function s) (function u) := by
  obtain ⟨typeParams, params, result⟩ := (same_function_iff s t).mp first
  obtain ⟨typeParams', params', result'⟩ := (same_function_iff t u).mp second
  refine (same_function_iff s u).mpr ⟨?_, ?_, ?_⟩
  · refine forall₂_trans_of_mem ?_ typeParams typeParams'
    rintro p memberP q memberQ r memberR ⟨name, constraint⟩ ⟨name', constraint'⟩
    refine ⟨name.trans name', rel_trans_of_mem ?_ constraint constraint'⟩
    intro c bound d bound' e bound''
    exact (settled c (constraint_mem_children memberP bound)).trans
      (wfMiddle.child (constraint_mem_children memberQ bound'))
      (wfLast.child (constraint_mem_children memberR bound''))
  · refine forall₂_trans_of_mem ?_ params params'
    intro p memberP q memberQ r memberR
    exact (settled p (param_mem_children memberP)).trans (wfMiddle.child (param_mem_children memberQ))
      (wfLast.child (param_mem_children memberR))
  · exact (settled _ (result_mem_children s)).trans (wfMiddle.child (result_mem_children t))
      (wfLast.child (result_mem_children u)) result result'

end Signatures

theorem settled_symm {a b : Ty} (settled : ∀ c ∈ a.children, Settled c) (wf : a.WellFormed)
    (wfOther : b.WellFormed) (equal : Same a b) : Same b a := by
  cases sameNode_of_same equal with
  | primitive kind => exact same_self _
  | literal value => exact Literal.same_symm value
  | array element => exact (settled _ (.head _)).symm (wfOther.child (.head _)) element
  | tuple elements =>
      refine same_of_sameNode (.tuple (forall₂_symm_of_mem ?_ elements))
      intro e member f member'
      exact (settled e member).symm (wfOther.child member')
  | object => exact object_symm settled wf wfOther equal
  | record keys values =>
      exact same_of_sameNode (.record ((settled _ (.head _)).symm wfOther.recordKey keys)
        ((settled _ (.tail _ (.head _))).symm wfOther.recordValue values))
  | unionOf counts among =>
      exact same_of_sameNode (.unionOf counts.symm (among_symm settled (fun _ => wf.unionMember)
        (fun _ => wfOther.unionMember) wf.node.apart counts among))
  | intersectionOf counts among =>
      exact same_of_sameNode (.intersectionOf counts.symm (among_symm settled
        (fun _ => wf.intersectionMember) (fun _ => wfOther.intersectionMember) wf.node.apart counts
        among))
  | anyFunction => exact equal
  | function => exact function_symm settled wfOther equal
  | ref name => exact equal
  | keyof subject => exact (settled _ (.head _)).symm (wfOther.child (.head _)) subject
  | predicate parameter guard =>
      exact same_of_sameNode
        (.predicate parameter ((settled _ (.head _)).symm (wfOther.child (.head _)) guard))

theorem settled_trans {a b c : Ty} (settled : ∀ c ∈ a.children, Settled c)
    (wfMiddle : b.WellFormed) (wfLast : c.WellFormed) (first : Same a b) (second : Same b c) :
    Same a c := by
  cases sameNode_of_same first with
  | primitive kind => exact second
  | literal value =>
      obtain ⟨last, rfl, value'⟩ := exists_literal_of_same second
      exact Literal.same_trans value value'
  | array element =>
      obtain ⟨last, rfl, element'⟩ := exists_array_of_same second
      exact (settled _ (.head _)).trans (wfMiddle.child (.head _)) (wfLast.child (.head _)) element
        element'
  | tuple elements =>
      obtain ⟨lasts, rfl, elements'⟩ := exists_tuple_of_same second
      refine same_of_sameNode (.tuple (forall₂_trans_of_mem ?_ elements elements'))
      intro e member f member' g member''
      exact (settled e member).trans (wfMiddle.child member') (wfLast.child member'')
  | object =>
      cases sameNode_of_same second with
      | object => exact object_trans settled wfMiddle wfLast first second
  | record keys values =>
      cases sameNode_of_same second with
      | record keys' values' =>
          exact same_of_sameNode (.record
            ((settled _ (.head _)).trans wfMiddle.recordKey wfLast.recordKey keys keys')
            ((settled _ (.tail _ (.head _))).trans wfMiddle.recordValue wfLast.recordValue values
              values'))
  | unionOf counts among =>
      cases sameNode_of_same second with
      | unionOf counts' among' =>
          exact same_of_sameNode (.unionOf (counts.trans counts') (among_trans settled
            (fun _ => wfMiddle.unionMember) (fun _ => wfLast.unionMember) among among'))
  | intersectionOf counts among =>
      cases sameNode_of_same second with
      | intersectionOf counts' among' =>
          exact same_of_sameNode (.intersectionOf (counts.trans counts') (among_trans settled
            (fun _ => wfMiddle.intersectionMember) (fun _ => wfLast.intersectionMember) among among'))
  | anyFunction => exact second
  | function =>
      cases sameNode_of_same second with
      | function => exact function_trans settled wfMiddle wfLast first second
  | ref name => exact second
  | keyof subject =>
      cases sameNode_of_same second with
      | keyof subject' =>
          exact (settled _ (.head _)).trans (wfMiddle.child (.head _)) (wfLast.child (.head _))
            subject subject'
  | predicate parameter guard =>
      cases sameNode_of_same second with
      | predicate _ guard' =>
          exact same_of_sameNode (.predicate parameter ((settled _ (.head _)).trans
            (wfMiddle.child (.head _)) (wfLast.child (.head _)) guard guard'))

theorem WellFormed.settled {a : Ty} (wf : a.WellFormed) : Settled a := by
  induction a using childrenInduction with
  | step a ih =>
      have parts : ∀ c ∈ a.children, Settled c := fun c member => ih c member (wf.child member)
      exact ⟨settled_symm parts wf, settled_trans parts⟩

theorem same_symm {a b : Ty} (wf : a.WellFormed) (wfOther : b.WellFormed) (equal : Same a b) :
    Same b a :=
  wf.settled.symm wfOther equal

theorem same_trans {a b c : Ty} (wf : a.WellFormed) (wfMiddle : b.WellFormed)
    (wfLast : c.WellFormed) (first : Same a b) (second : Same b c) : Same a c :=
  wf.settled.trans wfMiddle wfLast first second

end StructuralTypes.Ty
