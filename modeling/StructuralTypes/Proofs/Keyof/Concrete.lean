import StructuralTypes.Proofs.Compatibility.Alternatives
import StructuralTypes.Proofs.Keyof.Steps
import StructuralTypes.Proofs.Ty.Regrouping

set_option autoImplicit false

namespace StructuralTypes

/-- Next to each member of a union in normal form there is another one. -/
theorem Ty.NormalUnion.exists_apart {members : List Ty} {m : Ty} (normal : NormalUnion members)
    (listed : m ∈ members) : ∃ n ∈ members, ¬ m.Same n := by
  have several := normal.several
  have apart := normal.apart
  match members with
  | [] => cases listed
  | [only] => exact absurd several (by simp)
  | first :: second :: rest =>
      obtain ⟨fromFirst, _⟩ := List.pairwise_cons.mp apart
      rcases List.mem_cons.mp listed with rfl | later
      · exact ⟨second, .tail _ (.head _), (fromFirst second (.head _)).1⟩
      · exact ⟨first, .head _, (fromFirst m later).2⟩

/-- A union that is left with one member is one of the types that it is made from. -/
theorem Ty.union_mem {tys : List Ty} (wf : ∀ ty ∈ tys, ty.WellFormed)
    (single : (union tys).isUnion = false) (unkeyed : (union tys).primitive? = none) :
    union tys ∈ tys := by
  have proper : (union tys).isAny = false := by
    rw [isAny_eq_primitive?, unkeyed]
    rfl
  have members : (union tys).unionMembers = [union tys] := unionMembers_eq_self single
  have parts : union tys ∈ unionParts tys := by
    have listed : union tys ∈ (union tys).unionMembers := by
      rw [members]
      exact .head _
    rw [unionMembers_union wf proper] at listed
    split at listed
    · rw [List.mem_singleton.mp listed] at unkeyed
      cases unkeyed
    · exact listed
  obtain ⟨ty, inside, listed⟩ := List.mem_flatMap.mp (mem_of_mem_unionParts parts)
  cases ty with
  | unionOf others =>
      -- a second member of that union would be left beside this one
      have normal := (wf _ inside).node
      obtain ⟨n, other, different⟩ := normal.exists_apart listed
      have absorbs := unionMembers_union_absorb wf (List.mem_flatMap.mpr ⟨_, inside, other⟩)
      rw [members] at absorbs
      rcases absorbs with ⟨m, here, isAny⟩ | isNever | ⟨m, here, same⟩ | absorbed
      · rw [List.mem_singleton.mp here, proper] at isAny
        cases isAny
      · rw [(normal.proper n other).2] at isNever
        cases isNever
      · rw [List.mem_singleton.mp here] at same
        exact absurd same different
      · cases n with
        | literal l => simp [isAbsorbed, unkeyed] at absorbed
        | _ => cases absorbed
  | _ =>
      rw [List.mem_singleton.mp listed]
      exact inside

namespace AliasMap

variable {aliases : AliasMap} {ty key value subject : Ty}

section References

/-- The end of a chain is no declared name. -/
theorem follow_undeclared {left : Nat} {chain : List String} {name : String}
    (ended : aliases.follow left chain ty = .ok (.ref name)) : aliases.find? name = none := by
  fun_induction follow aliases left chain ty with
  | case1 left chain other undeclared =>
      cases ended
      exact undeclared
  | case2 => cases ended
  | case3 => cases ended
  | case4 chain other d found new left ih => exact ih ended
  | case5 left chain ty single =>
      cases ended
      exact absurd rfl (single name)

namespace Ends

variable (ends : aliases.Ends)

include ends

theorem resolve_undeclared {name : String} (ended : aliases.resolve ty = .ref name) :
    aliases.contains name = false := by
  obtain ⟨resolved, found⟩ := ends.exists_tryResolve ty
  rw [resolve, found] at ended
  cases ended
  rw [contains, follow_undeclared found]
  rfl

theorem resolve_resolve (ty : Ty) : aliases.resolve (aliases.resolve ty) = aliases.resolve ty := by
  obtain ⟨resolved, found⟩ := ends.exists_tryResolve ty
  have once : aliases.resolve ty = resolved := by rw [resolve, found]
  rw [once]
  exact follow_end found

theorem concrete_undeclared {name : String} (ended : aliases.concrete ty = .ref name) :
    aliases.contains name = false := by
  rw [concrete] at ended
  split at ended
  · exact ends.resolve_undeclared ended
  · exact ends.resolve_undeclared ended

/-- It makes no difference if the reference has been followed before. -/
theorem concrete_resolve (ty : Ty) : aliases.concrete (aliases.resolve ty) = aliases.concrete ty := by
  rw [concrete, ends.resolve_resolve, ← concrete]

end Ends

end References

section Records

theorem keyofSubject_record (key value : Ty) : aliases.keyofSubject (.record key value) = key := by
  have operand (keys : Ty → Option Ty) :
      aliases.keyofOperand? keys (.record key value) = some (.record key value) := by
    rw [keyofOperand?, resolve_of_refName?_eq_none rfl]
  rw [keyofSubject, keyofSteps, keyofSubject?, keyofStep?_eq, operand]
  rfl

/-- The key of a record is followed as a reference and not evaluated any further. -/
theorem concrete_keyof_record (key value : Ty) :
    aliases.concrete (.keyof (.record key value)) = aliases.resolve key := by
  rw [concrete, resolve_of_refName?_eq_none rfl]
  dsimp only
  rw [keyofSubject_record]

theorem concrete_eq_resolve (evaluated : (aliases.resolve ty).isKeyof = false) :
    aliases.concrete ty = aliases.resolve ty := by
  rw [concrete]
  split
  case h_1 subject found =>
    rw [found] at evaluated
    cases evaluated
  case h_2 => rfl

/-- A node is no record whose key stands for a `keyof`. -/
def keyEvaluated (aliases : AliasMap) : Ty → Bool
  | .record key _ => !(aliases.resolve key).isKeyof
  | _ => true

/-- No record inside of a type has a key that stands for a `keyof`. -/
def KeysEvaluated (aliases : AliasMap) (ty : Ty) : Prop :=
  ty.Throughout fun part => aliases.keyEvaluated part = true

instance : Decidable (aliases.KeysEvaluated ty) := inferInstanceAs (Decidable (ty.Throughout _))

theorem keyofClosed_keysEvaluated (bodies : ∀ d ∈ aliases.definitions, aliases.KeysEvaluated d.body) :
    aliases.KeyofClosed aliases.KeysEvaluated where
  primitive _ := .intro rfl nofun
  literal _ := .intro rfl nofun
  subject _ known := known.child (.head _)
  key _ _ known := known.child (.head _)
  unionMember _ known _ listed := known.child listed
  intersectionMember _ known _ listed := known.child listed
  resolve _ known := resolve_induction aliases.KeysEvaluated bodies known

theorem isUnion_of_keyof (found : (aliases.resolve ty).isKeyof = true) :
    ty.isUnion = false ∧ ty.primitive? = none := by
  cases ty with
  | ref name => exact ⟨rfl, rfl⟩
  | keyof subject => exact ⟨rfl, rfl⟩
  | _ =>
      rw [resolve_of_refName?_eq_none rfl] at found
      cases found

/-- A union of types that stand for no `keyof` does not stand for one either. -/
theorem resolve_union {tys : List Ty} (wf : ∀ ty ∈ tys, ty.WellFormed)
    (each : ∀ ty ∈ tys, (aliases.resolve ty).isKeyof = false) :
    (aliases.resolve (.union tys)).isKeyof = false := by
  by_contra kept
  rw [Bool.not_eq_false] at kept
  obtain ⟨single, unkeyed⟩ := isUnion_of_keyof kept
  rw [each _ (Ty.union_mem wf single unkeyed)] at kept
  cases kept

theorem resolve_ofNames (names : List String) :
    (aliases.resolve (.ofNames names)).isKeyof = false := by
  refine resolve_union ?_ ?_
  · exact List.forall_mem_map.mpr fun name _ => .literal (.text name)
  · refine List.forall_mem_map.mpr fun name _ => ?_
    rw [resolve_of_refName?_eq_none rfl]
    rfl

theorem resolve_primitive (kind : Primitive) :
    (aliases.resolve (.primitive kind)).isKeyof = false := by
  rw [resolve_of_refName?_eq_none rfl]
  rfl

section Evaluation

variable (wf : aliases.WellFormed)
  (bodies : ∀ d ∈ aliases.definitions, aliases.KeysEvaluated d.body)

include wf bodies

/-- The keys of a type stand for no `keyof` if no record is keyed by one. -/
theorem keyofSubject?_evaluated (steps : Nat) {subject keys : Ty} (wfSubject : subject.WellFormed)
    (known : Known aliases.KeysEvaluated subject)
    (found : aliases.keyofSubject? steps subject = some keys) :
    (aliases.resolve keys).isKeyof = false := by
  have closed := keyofClosed_keysEvaluated bodies
  induction steps generalizing subject keys with
  | zero => cases found
  | succ steps ih =>
      have wfKeys := keyofSubject?_wellFormed wf steps
      rw [keyofSubject?, keyofStep?_eq] at found
      obtain ⟨operand, evaluated, rest⟩ := Option.bind_eq_some_iff.mp found
      have wfOperand := keyofOperand?_wellFormed wf wfKeys wfSubject evaluated
      have knownOperand := closed.keyofOperand? (closed.keyofSubject? steps) known evaluated
      cases operand with
      | object shape =>
          cases rest
          exact resolve_ofNames _
      | record key value =>
          cases rest
          simpa [keyEvaluated] using (knownOperand.of_single rfl).here
      | primitive kind =>
          cases kind <;> cases rest
          all_goals first
            | exact resolve_primitive .string
            | exact resolve_union (by decide) (by simp [resolve_primitive])
      | intersectionOf members =>
          obtain ⟨operands, each, joined⟩ := Option.bind_eq_some_iff.mp rest
          obtain ⟨others, keyed, joined⟩ := Option.bind_eq_some_iff.mp joined
          cases joined
          have inner (keys : Ty) (listed : keys ∈ others) :
              keys.WellFormed ∧ (aliases.resolve keys).isKeyof = false := by
            obtain ⟨o, inside, foundKeys⟩ := exists_of_mem_mapM keyed listed
            obtain ⟨m, member, foundOperand⟩ :=
              exists_of_mem_mapM each (List.mem_of_mem_filter inside)
            have wfO := keyofOperand?_wellFormed wf wfKeys (wfOperand.intersectionMember member)
              foundOperand
            have knownM := closed.known
              (closed.intersectionMember _ (knownOperand.of_single rfl) m member)
            have knownO := closed.keyofOperand? (closed.keyofSubject? steps) knownM foundOperand
            exact ⟨wfKeys o keys wfO foundKeys, ih wfO knownO foundKeys⟩
          refine resolve_union ?_ ?_
          · exact List.forall_mem_cons.mpr ⟨ofNames_wellFormed _, fun k listed => (inner k listed).1⟩
          · exact List.forall_mem_cons.mpr ⟨resolve_ofNames _, fun k listed => (inner k listed).2⟩
      | _ =>
          cases rest
          exact resolve_primitive .string

theorem isKeyof_concrete (wfTy : ty.WellFormed) (evaluated : aliases.KeysEvaluated ty) :
    (aliases.concrete ty).isKeyof = false := by
  have closed := keyofClosed_keysEvaluated bodies
  have wfResolved := resolve_wellFormed wf wfTy
  have resolved := closed.resolve ty evaluated
  rw [concrete]
  split
  case h_1 subject found =>
    rw [found] at wfResolved resolved
    have known := closed.known (closed.subject subject resolved)
    rw [keyofSubject]
    cases keys : aliases.keyofSubject? (aliases.keyofSteps subject) subject with
    | none => exact resolve_primitive .string
    | some result => exact keyofSubject?_evaluated wf bodies _ (wfResolved.child (.head _)) known keys
  case h_2 other =>
    cases shape : aliases.resolve ty with
    | keyof subject => exact absurd shape (other subject)
    | _ => rfl

end Evaluation

end Records

end AliasMap

namespace Context

/-- Where all chains of references end, no declared name is left of a type once it has been made
concrete, and no `keyof` either if no record is keyed by one. The keys of a record are compared as
its key where that stands for no `keyof`, and else as the `keyof` that is left of it. -/
theorem concrete_reached (ctx : Context) (wf : ctx.aliases.WellFormed) (ends : ctx.aliases.Ends) :
    (∀ ty name, ctx.aliases.concrete ty = .ref name → ctx.aliases.contains name = false) ∧
    ((∀ d ∈ ctx.aliases.definitions, ctx.aliases.KeysEvaluated d.body) →
      ∀ ty : Ty, ty.WellFormed → ctx.aliases.KeysEvaluated ty →
        (ctx.aliases.concrete ty).isKeyof = false) ∧
    ∀ source key value : Ty,
      let keys := Ty.keyof (.record key value)
      (ctx.aliases.concrete keys).isKeyof = (ctx.aliases.resolve key).isKeyof ∧
      ((ctx.aliases.resolve key).isKeyof = false →
        ctx.compatible source keys = ctx.compatible source key) ∧
      ctx.compatible source (ctx.aliases.concrete keys) = ctx.compatible source key := by
  refine ⟨fun ty name => ends.concrete_undeclared, ?_, ?_⟩
  · intro bodies ty wfTy evaluated
    exact AliasMap.isKeyof_concrete wf bodies wfTy evaluated
  · intro source key value keys
    have left : ctx.aliases.concrete keys = ctx.aliases.resolve key :=
      AliasMap.concrete_keyof_record key value
    refine ⟨by rw [left], ?_, ?_⟩
    · intro evaluated
      apply ctx.compatible_congr
      rw [Query.concrete, Query.concrete, left, AliasMap.concrete_eq_resolve evaluated]
    · apply ctx.compatible_congr
      rw [Query.concrete, Query.concrete, left, ends.concrete_resolve]

/-- A table with a column for each axis, and one with a label besides. -/
def columns : Context where
  aliases :=
    { definitions :=
        [⟨"Axis", [], .unionOf [.literal (.text "x"), .literal (.text "y")]⟩,
          ⟨"Table", [], .record (.ref "Axis") .number⟩,
          ⟨"Labelled", [], .intersectionOf [.ref "Table",
            .object { properties := [⟨"label", .string, false⟩] }]⟩] }

theorem columns_reached :
    (columns.aliases.concrete (.keyof (.ref "Labelled"))).isKeyof = false ∧
      columns.compatible (.literal (.text "x")) (.keyof (.record (.ref "Axis") .number)) =
        columns.compatible (.literal (.text "x")) (.ref "Axis") := by
  have ends : columns.aliases.Ends := by
    intro d listed
    simp only [columns, List.mem_cons, List.not_mem_nil, or_false] at listed
    rcases listed with rfl | rfl | rfl <;> exact ⟨_, rfl⟩
  obtain ⟨_, evaluated, record⟩ := columns.concrete_reached (by decide) ends
  refine ⟨evaluated (by decide) _ (by decide) (by decide), ?_⟩
  exact (record (.literal (.text "x")) (.ref "Axis") .number).2.1 (by decide)

/-- The keys of a record that is keyed by the keys of an object are left as a `keyof`: a literal that
the keys of the object accept is refused. -/
theorem nested_keys_refused :
    let names : Ty := .keyof (.object { properties := [⟨"a", .number, false⟩] })
    let keys : Ty := .keyof (.record names .string)
    let ctx : Context := {}
    (ctx.aliases.concrete keys).isKeyof = true ∧
      ((ctx.compatible (.literal (.text "a")) keys).value = false ∧
        (ctx.compatible (.literal (.text "a")) keys).cut = false) ∧
      (ctx.compatible (.literal (.text "a")) names).value = true := by
  decide +kernel

end Context

end StructuralTypes
