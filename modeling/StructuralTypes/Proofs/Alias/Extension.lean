import StructuralTypes.Proofs.Keyof.Steps
import StructuralTypes.Proofs.Reordering.Leaves
import StructuralTypes.Proofs.Ty.Names

set_option autoImplicit false

namespace StructuralTypes

namespace Ty

/-- Making the type concrete looks the name up: the type is a reference to it, or `keyof` of a type
that it stands free in. -/
def LooksUp (name : String) : Ty → Prop
  | ref own => own = name
  | keyof subject => subject.OccursFree name
  | _ => False

instance (name : String) : DecidablePred (LooksUp name)
  | ref own => inferInstanceAs (Decidable (own = name))
  | keyof subject => inferInstanceAs (Decidable (subject.OccursFree name))
  | primitive _ | literal _ | array _ | tuple _ | object _ | record _ _ | unionOf _
  | intersectionOf _ | anyFunction | function _ | predicate _ _ => inferInstanceAs (Decidable False)

/-- The name is one of those that a type is an intersection of. -/
inductive Meets (name : String) : Ty → Prop
  | here : Meets name (ref name)
  | member {members : List Ty} {m : Ty} (listed : m ∈ members) (inside : Meets name m) :
    Meets name (intersectionOf members)

theorem OccursFree.of_meets {name : String} {ty : Ty} (meets : ty.Meets name) : ty.OccursFree name := by
  induction meets with
  | here => exact .here
  | member listed _ ih => exact .inside List.not_mem_nil listed ih

end Ty

namespace AliasMap

/-- No body refers to the name. -/
def Unmentioned (aliases : AliasMap) (name : String) : Prop :=
  ∀ d ∈ aliases.definitions, ¬ d.body.OccursFree name

instance (aliases : AliasMap) (name : String) : Decidable (aliases.Unmentioned name) :=
  inferInstanceAs (Decidable (∀ d ∈ aliases.definitions, ¬ d.body.OccursFree name))

variable {aliases : AliasMap} {d : AliasDefinition} {name : String} {ty subject : Ty}

theorem find?_insert_of_ne (other : name ≠ d.name) :
    (aliases.insert d).find? name = aliases.find? name := by
  have put (definitions : List AliasDefinition) :
      (insert.put d definitions).find? (fun e => e.name == name) =
        definitions.find? (fun e => e.name == name) := by
    induction definitions with
    | nil =>
        rw [insert.put, List.find?_cons, beq_false_of_ne other.symm]
    | cons e es ih =>
        rw [insert.put]
        split
        case isTrue same =>
          rw [List.find?_cons, List.find?_cons, same, beq_false_of_ne other.symm]
        case isFalse => rw [List.find?_cons, List.find?_cons, ih]
  exact put aliases.definitions

theorem size_le_size_insert : aliases.size ≤ (aliases.insert d).size := by
  have put (definitions : List AliasDefinition) :
      definitions.length ≤ (insert.put d definitions).length := by
    induction definitions with
    | nil => exact Nat.zero_le _
    | cons e es ih =>
        rw [insert.put]
        split
        · exact Nat.le_refl _
        · exact Nat.succ_le_succ ih
  exact put aliases.definitions

theorem keyofClosed_unmentioned (unmentioned : aliases.Unmentioned name) :
    aliases.KeyofClosed fun ty => ¬ ty.OccursFree name where
  primitive := by
    rintro kind (_ | ⟨_, member, _⟩)
    cases member
  literal := by
    rintro value (_ | ⟨_, member, _⟩)
    cases member
  subject := fun subject free occurs => free (.inside List.not_mem_nil (.head _) occurs)
  key := fun key value free occurs => free (.inside List.not_mem_nil (.head _) occurs)
  unionMember := fun members free m member occurs => free (.inside List.not_mem_nil member occurs)
  intersectionMember := fun members free m member occurs =>
    free (.inside List.not_mem_nil member occurs)
  resolve := fun ty free => resolve_induction (fun ty => ¬ ty.OccursFree name) unmentioned free

theorem Known.ne_ref (known : Known (fun ty => ¬ ty.OccursFree name) ty) : ty ≠ .ref name := by
  rintro rfl
  exact known.of_single rfl .here

section Concrete

variable (unmentioned : aliases.Unmentioned d.name)

include unmentioned

theorem follow_insert (left : Nat) (chain : List String) (other : ty ≠ .ref d.name) :
    (aliases.insert d).follow left chain ty = aliases.follow left chain ty := by
  have found {own : String} (other : Ty.ref own ≠ .ref d.name) :
      (aliases.insert d).find? own = aliases.find? own :=
    find?_insert_of_ne fun same => other (congrArg Ty.ref same)
  fun_induction follow aliases left chain ty with
  | case1 left chain own undeclared => rw [follow, found other, undeclared]
  | case2 left chain own e declared returns =>
      rw [follow, found other, declared]
      exact if_pos returns
  | case3 chain own e declared new =>
      rw [follow, found other, declared]
      exact if_neg new
  | case4 chain own e declared new left ih =>
      have member := List.mem_of_find?_eq_some declared
      rw [follow, found other, declared]
      refine (if_neg new).trans (ih fun same => ?_)
      exact unmentioned e member (same ▸ .here)
  | case5 left chain ty single =>
      refine follow_of_refName?_eq_none ?_
      cases ty with
      | ref own => exact absurd rfl (single own)
      | _ => rfl

theorem resolve_insert (other : ty ≠ .ref d.name) :
    (aliases.insert d).resolve ty = aliases.resolve ty := by
  have followed : (aliases.insert d).tryResolve ty = aliases.tryResolve ty :=
    follow_insert unmentioned aliases.maxDepth [] other
  rw [resolve, resolve, followed]

theorem keyofSubject_insert (free : ¬ subject.OccursFree d.name) :
    (aliases.insert d).keyofSubject subject = aliases.keyofSubject subject := by
  have closed := keyofClosed_unmentioned unmentioned
  exact keyofSubject_eq_of_resolves closed (fun ty known => resolve_insert unmentioned known.ne_ref)
    (closed.known free)

/-- What does not look the name up is made concrete as before. -/
theorem concrete_insert (unread : ¬ ty.LooksUp d.name) :
    (aliases.insert d).concrete ty = aliases.concrete ty := by
  have closed := keyofClosed_unmentioned unmentioned
  have other : ty ≠ .ref d.name := by
    rintro rfl
    exact unread rfl
  have free (subject : Ty) (evaluated : aliases.resolve ty = .keyof subject) :
      ¬ subject.OccursFree d.name := by
    cases ty with
    | ref own =>
        refine closed.subject subject (evaluated ▸ closed.resolve _ ?_)
        exact fun occurs => other (congrArg Ty.ref (Ty.occursFree_ref_iff.mp occurs).symm)
    | keyof own =>
        cases evaluated.symm.trans (resolve_of_refName?_eq_none rfl)
        exact unread
    | _ => cases evaluated.symm.trans (resolve_of_refName?_eq_none rfl)
  rw [concrete, concrete, resolve_insert unmentioned other]
  split
  case h_1 subject evaluated =>
    have known := closed.keyofSubject (closed.known (free subject evaluated))
    rw [keyofSubject_insert unmentioned (free subject evaluated),
      resolve_insert unmentioned known.ne_ref]
  case h_2 => rfl

end Concrete

section Leaves

variable (unmentioned : aliases.Unmentioned d.name)

/-- The search for leaves inside of a name other than the new one goes as before, whatever numbers
of expansions are left, as long as both are enough. -/
def LeavesAlike (aliases : AliasMap) (d : AliasDefinition) (left left' : Nat) : Prop :=
  ∀ (seen : List String) (name : String), name ≠ d.name →
    (aliases.contains name = true → aliases.unseen seen < min left left') →
      (aliases.insert d).expandLeaves left' seen name = aliases.expandLeaves left seen name

variable {left left' : Nat}

theorem leavesOfAll_insert {tys : List Ty}
    (each : ∀ ty ∈ tys, ∀ seen, aliases.unseen seen ≤ min left left' →
      ty.leavesWith ((aliases.insert d).expandLeaves left') seen =
        ty.leavesWith (aliases.expandLeaves left) seen)
    (seen : List String) (room : aliases.unseen seen ≤ min left left') :
    Ty.leavesOfAll ((aliases.insert d).expandLeaves left') seen tys =
      Ty.leavesOfAll (aliases.expandLeaves left) seen tys := by
  induction tys generalizing seen with
  | nil => rfl
  | cons ty tys ih =>
      have collected := (leavesWith_collected (aliases.expandLeaves_collected left) ty seen).1
      have later := Nat.le_trans (unseen_mono collected.grows) room
      have rest := ih (fun other listed => each other (.tail _ listed)) _ later
      simp only [Ty.leavesOfAll, each ty (.head _) seen room, rest]

theorem leavesWith_insert (alike : aliases.LeavesAlike d left left') (apart : ¬ ty.Meets d.name)
    (seen : List String) (room : aliases.unseen seen ≤ min left left') :
    ty.leavesWith ((aliases.insert d).expandLeaves left') seen =
      ty.leavesWith (aliases.expandLeaves left) seen := by
  induction ty using Ty.childrenInduction generalizing seen with
  | step ty ih =>
      cases ty with
      | intersectionOf members =>
          refine leavesOfAll_insert (fun m member => ih m member fun meets => ?_) seen room
          exact apart (.member member meets)
      | ref name =>
          have other : name ≠ d.name := by
            rintro rfl
            exact apart .here
          rw [Ty.leavesWith, Ty.leavesWith]
          split
          case isTrue => rfl
          case isFalse new =>
            refine alike (name :: seen) name other fun declared => ?_
            exact Nat.lt_of_lt_of_le (unseen_cons_lt declared (by simpa using new)) room
      | _ => rfl

theorem expandLeaves_of_undeclared (undeclared : aliases.contains name = false) (left : Nat)
    (seen : List String) : aliases.expandLeaves left seen name = ([.ref name], seen) := by
  cases left with
  | zero => rfl
  | succ left => rw [expandLeaves, resolve_of_undeclared undeclared]

theorem expandLeaves_insert_of_undeclared (other : name ≠ d.name) (undeclared : aliases.contains name = false)
    (left left' : Nat) (seen : List String) :
    (aliases.insert d).expandLeaves left' seen name = aliases.expandLeaves left seen name := by
  have still : (aliases.insert d).contains name = false := by
    rw [contains, find?_insert_of_ne other]
    exact undeclared
  rw [expandLeaves_of_undeclared undeclared, expandLeaves_of_undeclared still]

include unmentioned

theorem expandLeaves_insert (left left' : Nat) : aliases.LeavesAlike d left left' := by
  have closed := keyofClosed_unmentioned unmentioned
  induction left generalizing left' with
  | zero =>
      intro seen name other room
      by_cases declared : aliases.contains name = true
      · exact absurd (room declared) (by omega)
      · exact expandLeaves_insert_of_undeclared other (by simpa using declared) _ _ seen
  | succ left ih =>
      intro seen name other room
      by_cases declared : aliases.contains name = true
      · -- Inside, the name has been seen, so one expansion less is enough on both sides.
        have spare := room declared
        obtain ⟨less, rfl⟩ : ∃ less, left' = less + 1 := Nat.exists_eq_add_one.mpr (by omega)
        have free := closed.resolve (.ref name) fun occurs =>
          other (Ty.occursFree_ref_iff.mp occurs).symm
        rw [expandLeaves, expandLeaves,
          resolve_insert unmentioned fun same => other (Ty.ref.inj same)]
        split
        · rfl
        · exact leavesWith_insert (ih less) (fun meets => free (.of_meets meets)) seen (by omega)
      · exact expandLeaves_insert_of_undeclared other (by simpa using declared) _ _ seen

/-- An intersection that the name is no member of is merged as before. -/
theorem merge_insert (apart : ¬ ty.Meets d.name) : (aliases.insert d).merge ty = aliases.merge ty := by
  have room : aliases.unseen [] ≤ min (aliases.size + 1) ((aliases.insert d).size + 1) := by
    have all : aliases.unseen [] ≤ aliases.size := List.length_filter_le _ _
    have more : aliases.size ≤ (aliases.insert d).size := size_le_size_insert
    omega
  rw [merge, merge, leaves, leaves,
    leavesWith_insert (expandLeaves_insert unmentioned _ _) apart [] room]

end Leaves

end AliasMap

end StructuralTypes
