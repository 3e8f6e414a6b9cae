import StructuralTypes.Proofs.Freshness.Compatibility
import StructuralTypes.Proofs.Ty.Rearrangement

set_option autoImplicit false

namespace StructuralTypes

namespace Ty

section Names

theorem propertyNames_same {a b : Ty} (wfA : a.WellFormed) (wfB : b.WellFormed) (equal : Same a b)
    (name : String) : name ∈ a.propertyNames ↔ name ∈ b.propertyNames := by
  have included {s t : Shape Ty} (same : Same (object s) (object t))
      (listed : name ∈ (object s).propertyNames) : name ∈ (object t).propertyNames := by
    obtain ⟨_, properties, _, _⟩ := (same_object_iff s t).mp same
    obtain ⟨p, member, rfl⟩ := List.mem_map.mp listed
    obtain ⟨q, inside, pair⟩ := properties p member
    exact List.mem_map.mpr ⟨q, inside, pair.name.symm⟩
  have turned := same_symm wfA wfB equal
  cases sameNode_of_same equal with
  | object => exact ⟨included equal, included turned⟩
  | _ => exact Iff.rfl

theorem ofNames_same {names others : List String} (agree : ∀ name, name ∈ names ↔ name ∈ others) :
    Same (ofNames names) (ofNames others) := by
  have wf (names : List String) :
      ∀ ty ∈ names.map (fun name => literal (.text name)), ty.WellFormed := by
    intro ty member
    obtain ⟨name, _, rfl⟩ := List.mem_map.mp member
    exact .literal (.text name)
  refine union_same (wf names) (wf others) ⟨?_, ?_⟩
  · intro ty member
    obtain ⟨name, listed, rfl⟩ := List.mem_map.mp member
    exact ⟨_, List.mem_map.mpr ⟨name, (agree name).mp listed, rfl⟩, same_self _⟩
  · intro ty member
    obtain ⟨name, listed, rfl⟩ := List.mem_map.mp member
    exact ⟨_, List.mem_map.mpr ⟨name, (agree name).mpr listed, rfl⟩, same_self _⟩

theorem isObject_same {a b : Ty} (equal : Same a b) : a.isObject = b.isObject := by
  cases sameNode_of_same equal <;> rfl

end Names

end Ty

namespace AliasMap

variable {aliases : AliasMap} {a b : Ty}

theorem refName?_same (equal : a.Same b) : a.refName? = b.refName? := by
  cases Ty.sameNode_of_same equal <;> rfl

theorem resolve_same (equal : a.Same b) : (aliases.resolve a).Same (aliases.resolve b) := by
  have names := refName?_same equal
  cases named : a.refName? with
  | none =>
      rw [resolve_of_refName?_eq_none named, resolve_of_refName?_eq_none (names.symm.trans named)]
      exact equal
  | some name =>
      have left : a = .ref name := eq_ref_of_refName? named
      have right : b = .ref name := eq_ref_of_refName? (names.symm.trans named)
      rw [left, right]
      exact Ty.same_self _

section Keys

theorem rel_isSome {α β : Type} {related : α → β → Prop} {x : Option α} {y : Option β}
    (both : Option.Rel related x y) : x.isSome = y.isSome := by
  cases both <;> rfl

theorem rel_bind {α β γ δ : Type} {related : α → β → Prop} {result : γ → δ → Prop} {x : Option α}
    {y : Option β} {f : α → Option γ} {g : β → Option δ} (both : Option.Rel related x y)
    (step : ∀ u, x = some u → ∀ v, y = some v → related u v → Option.Rel result (f u) (g v)) :
    Option.Rel result (x.bind f) (y.bind g) := by
  cases both with
  | none => exact .none
  | some pair => exact step _ rfl _ rfl pair

theorem mapM_isSome {f : Ty → Option Ty} {tys : List Ty} :
    (tys.mapM f).isSome = true ↔ ∀ ty ∈ tys, (f ty).isSome = true := by
  induction tys with
  | nil => simp
  | cons ty tys ih =>
      rw [List.mapM_cons, List.forall_mem_cons, ← ih]
      cases f ty with
      | none => simp
      | some first => cases tys.mapM f <;> simp

theorem mem_of_mapM {f : Ty → Option Ty} {tys results : List Ty} (mapped : tys.mapM f = some results)
    {ty : Ty} (member : ty ∈ tys) : ∃ result ∈ results, f ty = some result := by
  induction tys generalizing results with
  | nil => cases member
  | cons first rest ih =>
      rw [List.mapM_cons] at mapped
      obtain ⟨head, evaluated, mapped⟩ := Option.bind_eq_some_iff.mp mapped
      obtain ⟨tail, others, mapped⟩ := Option.bind_eq_some_iff.mp mapped
      cases mapped
      rcases List.mem_cons.mp member with rfl | later
      · exact ⟨head, .head _, evaluated⟩
      · obtain ⟨result, inside, found⟩ := ih others later
        exact ⟨result, .tail _ inside, found⟩

/-- A partial function that respects equality makes lists that hold equal types of lists that do. -/
theorem mapM_same {f : Ty → Option Ty} {as bs : List Ty}
    (respects : ∀ a ∈ as, ∀ b ∈ bs, a.Same b → Option.Rel Ty.Same (f a) (f b))
    (set : Ty.SameSet as bs) : Option.Rel Ty.SameSet (as.mapM f) (bs.mapM f) := by
  have defined : (as.mapM f).isSome = (bs.mapM f).isSome := by
    rw [Bool.eq_iff_iff, mapM_isSome, mapM_isSome]
    constructor
    · intro all b memberB
      obtain ⟨a, memberA, equal⟩ := set.back b memberB
      rw [← rel_isSome (respects a memberA b memberB equal)]
      exact all a memberA
    · intro all a memberA
      obtain ⟨b, memberB, equal⟩ := set.forth a memberA
      rw [rel_isSome (respects a memberA b memberB equal)]
      exact all b memberB
  cases left : as.mapM f with
  | none =>
      rw [left] at defined
      have right : bs.mapM f = none := by simpa using defined.symm
      rw [right]
      exact .none
  | some xs =>
      rw [left] at defined
      obtain ⟨ys, right⟩ := Option.isSome_iff_exists.mp defined.symm
      rw [right]
      refine .some ⟨?_, ?_⟩
      · intro x member
        obtain ⟨a, memberA, found⟩ := exists_of_mem_mapM left member
        obtain ⟨b, memberB, equal⟩ := set.forth a memberA
        obtain ⟨y, inside, other⟩ := mem_of_mapM right memberB
        have results := respects a memberA b memberB equal
        rw [found, other, Option.rel_some_some] at results
        exact ⟨y, inside, results⟩
      · intro y member
        obtain ⟨b, memberB, found⟩ := exists_of_mem_mapM right member
        obtain ⟨a, memberA, equal⟩ := set.back b memberB
        obtain ⟨x, inside, other⟩ := mem_of_mapM left memberA
        have results := respects a memberA b memberB equal
        rw [found, other, Option.rel_some_some] at results
        exact ⟨x, inside, results⟩

variable {keys : Ty → Option Ty}
  (respects : ∀ s t : Ty, s.WellFormed → t.WellFormed → s.Same t →
    Option.Rel Ty.Same (keys s) (keys t))

include respects

theorem keyofOperand?_same (wf : aliases.WellFormed) (wfA : a.WellFormed) (wfB : b.WellFormed)
    (equal : a.Same b) :
    Option.Rel Ty.Same (aliases.keyofOperand? keys a) (aliases.keyofOperand? keys b) := by
  have wfLeft := resolve_wellFormed wf wfA
  have wfRight := resolve_wellFormed wf wfB
  have resolved : (aliases.resolve a).Same (aliases.resolve b) := resolve_same equal
  rw [keyofOperand?, keyofOperand?]
  generalize aliases.resolve a = x at wfLeft resolved ⊢
  generalize aliases.resolve b = y at wfRight resolved ⊢
  cases x with
  | keyof subject =>
      cases y with
      | keyof other =>
          exact respects _ _ (wfLeft.child (.head _)) (wfRight.child (.head _)) resolved
      | _ => cases resolved
  | _ =>
      cases y with
      | keyof other => cases resolved
      | _ => exact .some resolved

theorem joinedKeys?_same
    (wfKeys : ∀ s k : Ty, s.WellFormed → keys s = some k → k.WellFormed) {as bs : List Ty}
    (wfA : ∀ a ∈ as, a.WellFormed) (wfB : ∀ b ∈ bs, b.WellFormed) (set : Ty.SameSet as bs) :
    Option.Rel Ty.Same (joinedKeys? keys as) (joinedKeys? keys bs) := by
  have names : ∀ name, name ∈ (as.flatMap Ty.propertyNames).eraseDups ↔
      name ∈ (bs.flatMap Ty.propertyNames).eraseDups := by
    intro name
    rw [List.mem_eraseDups, List.mem_eraseDups, List.mem_flatMap, List.mem_flatMap]
    constructor
    · intro ⟨a, member, listed⟩
      obtain ⟨b, inside, equal⟩ := set.forth a member
      exact ⟨b, inside, (Ty.propertyNames_same (wfA a member) (wfB b inside) equal name).mp listed⟩
    · intro ⟨b, member, listed⟩
      obtain ⟨a, inside, equal⟩ := set.back b member
      exact ⟨a, inside, (Ty.propertyNames_same (wfA a inside) (wfB b member) equal name).mpr listed⟩
  have others : Ty.SameSet (as.filter fun ty => !ty.isObject) (bs.filter fun ty => !ty.isObject) :=
    set.filter fun x y equal => by rw [Ty.isObject_same equal]
  have evaluated : Option.Rel Ty.SameSet ((as.filter fun ty => !ty.isObject).mapM keys)
      ((bs.filter fun ty => !ty.isObject).mapM keys) :=
    mapM_same (fun x inX y inY => respects x y (wfA x (List.mem_of_mem_filter inX))
      (wfB y (List.mem_of_mem_filter inY))) others
  have wfResults {tys results : List Ty} (wf : ∀ ty ∈ tys, ty.WellFormed)
      (mapped : (tys.filter fun ty => !ty.isObject).mapM keys = some results) :
      ∀ ty ∈ Ty.ofNames (tys.flatMap Ty.propertyNames).eraseDups :: results, ty.WellFormed := by
    intro ty member
    rcases List.mem_cons.mp member with rfl | later
    · exact ofNames_wellFormed _
    · obtain ⟨subject, inside, found⟩ := exists_of_mem_mapM mapped later
      exact wfKeys subject ty (wf subject (List.mem_of_mem_filter inside)) found
  refine rel_bind evaluated ?_
  intro xs left ys right results
  refine .some (Ty.union_same (wfResults wfA left) (wfResults wfB right) ?_)
  exact (Ty.SameSet.singleton (Ty.ofNames_same names)).append results

theorem operandKeys?_same (wf : aliases.WellFormed)
    (wfKeys : ∀ s k : Ty, s.WellFormed → keys s = some k → k.WellFormed)
    (wfA : a.WellFormed) (wfB : b.WellFormed) (equal : a.Same b) :
    Option.Rel Ty.Same (aliases.operandKeys? keys a) (aliases.operandKeys? keys b) := by
  cases Ty.sameNode_of_same equal with
  | object => exact .some (Ty.ofNames_same (Ty.propertyNames_same wfA wfB equal))
  | record keys values => exact .some keys
  | primitive kind => cases kind <;> exact .some (Ty.same_self _)
  | @intersectionOf members others =>
      have set : Ty.SameSet members others := Ty.intersectionMembers_same wfA wfB equal
      have operands : Option.Rel Ty.SameSet (members.mapM (aliases.keyofOperand? keys))
          (others.mapM (aliases.keyofOperand? keys)) :=
        mapM_same (fun x inX y inY => keyofOperand?_same respects wf
          (wfA.intersectionMember inX) (wfB.intersectionMember inY)) set
      refine rel_bind operands ?_
      intro xs left ys right results
      refine joinedKeys?_same respects wfKeys ?_ ?_ results
      · intro x member
        obtain ⟨ty, inside, found⟩ := exists_of_mem_mapM left member
        exact keyofOperand?_wellFormed wf wfKeys (wfA.intersectionMember inside) found
      · intro y member
        obtain ⟨ty, inside, found⟩ := exists_of_mem_mapM right member
        exact keyofOperand?_wellFormed wf wfKeys (wfB.intersectionMember inside) found
  | _ => exact .some (Ty.same_self _)

end Keys

theorem keyofSubject?_same (wf : aliases.WellFormed) (steps : Nat) (a b : Ty) (wfA : a.WellFormed)
    (wfB : b.WellFormed) (equal : a.Same b) :
    Option.Rel Ty.Same (aliases.keyofSubject? steps a) (aliases.keyofSubject? steps b) := by
  induction steps generalizing a b with
  | zero => exact .none
  | succ steps ih =>
      have wfKeys := keyofSubject?_wellFormed wf steps
      rw [keyofSubject?, keyofSubject?, keyofStep?_eq, keyofStep?_eq]
      refine rel_bind (keyofOperand?_same ih wf wfA wfB equal) ?_
      intro x left y right same
      exact operandKeys?_same ih wf wfKeys (keyofOperand?_wellFormed wf wfKeys wfA left)
        (keyofOperand?_wellFormed wf wfKeys wfB right) same

theorem keyofSubject_same (wf : aliases.WellFormed) (wfA : a.WellFormed) (wfB : b.WellFormed)
    (equal : a.Same b) : (aliases.keyofSubject a).Same (aliases.keyofSubject b) := by
  have steps : aliases.keyofSteps a = aliases.keyofSteps b := by
    rw [keyofSteps, keyofSteps, Ty.size_same wfA equal]
  have results := keyofSubject?_same wf (aliases.keyofSteps b) a b wfA wfB equal
  rw [keyofSubject, keyofSubject, steps]
  generalize aliases.keyofSubject? (aliases.keyofSteps b) a = x at results ⊢
  generalize aliases.keyofSubject? (aliases.keyofSteps b) b = y at results ⊢
  cases results with
  | none => exact Ty.same_self _
  | some pair => exact pair

/-- Equal types stand for equal types. -/
theorem concrete_same (wf : aliases.WellFormed) (wfA : a.WellFormed) (wfB : b.WellFormed)
    (equal : a.Same b) : (aliases.concrete a).Same (aliases.concrete b) := by
  have wfLeft := resolve_wellFormed wf wfA
  have wfRight := resolve_wellFormed wf wfB
  have resolved : (aliases.resolve a).Same (aliases.resolve b) := resolve_same equal
  rw [concrete, concrete]
  generalize aliases.resolve a = x at wfLeft resolved ⊢
  generalize aliases.resolve b = y at wfRight resolved ⊢
  cases x with
  | keyof subject =>
      cases y with
      | keyof other =>
          exact resolve_same
            (keyofSubject_same wf (wfLeft.child (.head _)) (wfRight.child (.head _)) resolved)
      | _ => cases resolved
  | _ =>
      cases y with
      | keyof other => cases resolved
      | _ => exact resolved

end AliasMap

end StructuralTypes
