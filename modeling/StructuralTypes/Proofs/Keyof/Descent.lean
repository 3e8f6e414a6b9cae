import Mathlib.Logic.Relation
import StructuralTypes.Proofs.Keyof.Concrete
import StructuralTypes.Proofs.Keyof.Merged

/-!
What is found on the way is evaluated again, so the descent is along results as well as along parts:
the keys of a type are inert, which ends the evaluation, or they lie further down on a way from it.
-/

set_option autoImplicit false

namespace StructuralTypes

open Relation

/-- To evaluate the keys of one type, another may have to be looked at. -/
inductive LooksAt (aliases : AliasMap) : Ty → Ty → Prop
  | named {name : String} {d : AliasDefinition} (found : aliases.find? name = some d) :
    LooksAt aliases (.ref name) d.body
  | subject {subject : Ty} : LooksAt aliases (.keyof subject) subject
  | member {members : List Ty} {m : Ty} (listed : m ∈ members) :
    LooksAt aliases (.intersectionOf members) m
  | key {key value : Ty} : LooksAt aliases (.record key value) key

theorem LooksAt.wellFormed {aliases : AliasMap} (wf : aliases.WellFormed) {whole part : Ty}
    (looks : LooksAt aliases whole part) (wfWhole : whole.WellFormed) : part.WellFormed := by
  cases looks with
  | named found => exact wf.body found
  | subject => exact wfWhole.child (.head _)
  | member listed => exact wfWhole.child listed
  | key => exact wfWhole.child (.head _)

/-- A type whose keys do not hang on anything else. -/
def Ty.isInert : Ty → Bool
  | primitive _ | literal _ | unionOf _ => true
  | _ => false

namespace AliasMap

/-- No name comes back to itself by what evaluation of keys looks at. -/
def KeysAcyclic (aliases : AliasMap) : Prop :=
  ∀ name, ¬ TransGen (LooksAt aliases) (.ref name) (.ref name)

variable {aliases : AliasMap} {ty subject operand keys : Ty}

section Descent

/-- Each name that is opened below others is a further one, so there is an end to it. -/
theorem KeysAcyclic.acc_of_opened (acyclic : aliases.KeysAcyclic) (left : Nat) (ty : Ty)
    (seen : List String) (room : aliases.unseen seen ≤ left)
    (opened : ∀ name ∈ seen, TransGen (LooksAt aliases) (.ref name) ty) :
    Acc (fun part whole => LooksAt aliases whole part) ty := by
  -- The outer induction is on the names that are left to open, the inner one on the type.
  induction left using Nat.strongRecOn generalizing ty seen with
  | ind left outer =>
      induction ty using Ty.childrenInduction with
      | step ty inner =>
          refine .intro ty fun part looks => ?_
          have onward : ∀ name ∈ seen, TransGen (LooksAt aliases) (.ref name) part :=
            fun name known => (opened name known).tail looks
          cases looks with
          | @named name d found =>
              have new : name ∉ seen := fun known => acyclic name (opened name known)
              have declared : aliases.contains name = true := by simp [contains, found]
              have fewer := unseen_cons_lt declared new
              refine outer _ (Nat.lt_of_lt_of_le fewer room) d.body (name :: seen) (Nat.le_refl _) ?_
              exact List.forall_mem_cons.mpr ⟨.single (.named found), onward⟩
          | subject => exact inner part (.head _) onward
          | member listed => exact inner part listed onward
          | key => exact inner part (.head _) onward

/-- There is no endless descent. -/
theorem KeysAcyclic.wellFounded (acyclic : aliases.KeysAcyclic) :
    WellFounded (TransGen fun part whole => LooksAt aliases whole part) :=
  WellFounded.transGen ⟨fun ty => acyclic.acc_of_opened _ ty [] (Nat.le_refl _) nofun⟩

theorem looksAt_resolve (aliases : AliasMap) (ty : Ty) :
    ReflTransGen (LooksAt aliases) ty (aliases.resolve ty) :=
  resolve_keeps (ReflTransGen (LooksAt aliases) ty) (fun _ _ found way => way.tail (.named found)) .refl

theorem wellFormed_of_transGen (wf : aliases.WellFormed) {whole part : Ty}
    (way : TransGen (LooksAt aliases) whole part) (wfWhole : whole.WellFormed) : part.WellFormed := by
  induction way with
  | single looks => exact looks.wellFormed wf wfWhole
  | tail _ looks ih => exact looks.wellFormed wf ih

end Descent

section Results

/-- What evaluation finds for a type is inert, or further down from it. -/
def Descends (aliases : AliasMap) (ty found : Ty) : Prop :=
  found.isInert = true ∨ TransGen (LooksAt aliases) ty found

/-- Enough steps find the keys of a type, and more steps find the same. -/
def KeysEnd (aliases : AliasMap) (ty : Ty) : Prop :=
  ∃ steps keys, (∀ more, steps ≤ more → aliases.keyofSubject? more ty = some keys) ∧
    keys.WellFormed ∧ aliases.Descends ty keys

/-- The operand of a type is found with enough steps: what the type stands for, or the keys of it. -/
theorem exists_operand (ends : ∀ part, TransGen (LooksAt aliases) ty part → aliases.KeysEnd part) :
    ∃ steps operand,
      (∀ more, steps ≤ more →
        aliases.keyofOperand? (aliases.keyofSubject? more) ty = some operand) ∧
      (operand.isInert = true ∨ ReflTransGen (LooksAt aliases) ty operand) := by
  have way := looksAt_resolve aliases ty
  cases resolved : aliases.resolve ty with
  | keyof subject =>
      have below : TransGen (LooksAt aliases) ty subject := .tail' (resolved ▸ way) .subject
      obtain ⟨steps, keys, found, _, descends⟩ := ends subject below
      refine ⟨steps, keys, fun more enough => ?_, descends.imp_right fun further => ?_⟩
      · rw [keyofOperand?, resolved]
        exact found more enough
      · exact (below.trans further).to_reflTransGen
  | _ =>
      refine ⟨0, aliases.resolve ty, fun more _ => ?_, Or.inr way⟩
      rw [keyofOperand?, resolved]

/-- A union of inert types and others is inert or one of the others. -/
theorem isInert_union {tys : List Ty} (wf : ∀ ty ∈ tys, ty.WellFormed) {holds : Ty → Prop}
    (each : ∀ ty ∈ tys, ty.isInert = true ∨ holds ty) :
    (Ty.union tys).isInert = true ∨ holds (.union tys) := by
  cases made : Ty.union tys with
  | primitive kind => exact Or.inl rfl
  | unionOf members => exact Or.inl rfl
  | _ =>
      rw [← made]
      exact each _ (Ty.union_mem wf (by rw [made]; rfl) (by rw [made]; rfl))

theorem isInert_ofNames (names : List String) : (Ty.ofNames names).isInert = true := by
  have texts : ∀ ty ∈ names.map fun name => Ty.literal (.text name),
      ty.WellFormed ∧ (ty.isInert = true ∨ False) :=
    List.forall_mem_map.mpr fun name _ => ⟨.literal (.text name), Or.inl rfl⟩
  exact (isInert_union (fun ty listed => (texts ty listed).1) fun ty listed =>
    (texts ty listed).2).resolve_right id

/-- The keys of an inert operand are there at once. -/
theorem operandKeys?_of_isInert (aliases : AliasMap) (inert : operand.isInert = true) :
    ∃ keys, (∀ inner, aliases.operandKeys? inner operand = some keys) ∧ keys.WellFormed ∧
      keys.isInert = true := by
  cases operand with
  | primitive kind =>
      cases kind with
      | any => exact ⟨.union [.string, .number], fun _ => rfl, by decide, by decide⟩
      | _ => exact ⟨.string, fun _ => rfl, .primitive .string, rfl⟩
  | literal value => exact ⟨.string, fun _ => rfl, .primitive .string, rfl⟩
  | unionOf members => exact ⟨.string, fun _ => rfl, .primitive .string, rfl⟩
  | _ => cases inert

theorem KeysEnd.of_operand {steps later : Nat}
    (evaluated : ∀ more, steps ≤ more →
      aliases.keyofOperand? (aliases.keyofSubject? more) ty = some operand)
    (found : ∀ more, later ≤ more →
      aliases.operandKeys? (aliases.keyofSubject? more) operand = some keys)
    (wf : keys.WellFormed) (descends : aliases.Descends ty keys) : aliases.KeysEnd ty := by
  refine ⟨max steps later + 1, keys, fun more enough => ?_, wf, descends⟩
  obtain ⟨fewer, rfl⟩ := Nat.exists_eq_add_one.mpr (Nat.lt_of_lt_of_le (Nat.succ_pos _) enough)
  rw [keyofSubject?, keyofStep?_eq, evaluated fewer (by omega), Option.bind_some]
  exact found fewer (by omega)

/-- The keys of the operand are there at once. -/
theorem KeysEnd.of_ready_operand {steps : Nat}
    (evaluated : ∀ more, steps ≤ more →
      aliases.keyofOperand? (aliases.keyofSubject? more) ty = some operand)
    (found : ∀ inner, aliases.operandKeys? inner operand = some keys)
    (wf : keys.WellFormed) (descends : aliases.Descends ty keys) : aliases.KeysEnd ty :=
  .of_operand evaluated (fun more (_ : 0 ≤ more) => found _) wf descends

theorem KeysEnd.of_inert_operand {steps : Nat}
    (evaluated : ∀ more, steps ≤ more →
      aliases.keyofOperand? (aliases.keyofSubject? more) ty = some operand)
    (inert : operand.isInert = true) : aliases.KeysEnd ty := by
  obtain ⟨keys, found, wf, inertKeys⟩ := operandKeys?_of_isInert aliases inert
  exact .of_ready_operand evaluated found wf (Or.inl inertKeys)

theorem not_transGen_of_isInert (inert : ty.isInert = true) {part : Ty} :
    ¬ TransGen (LooksAt aliases) ty part := by
  intro way
  obtain ⟨next, looks, _⟩ := TransGen.head'_iff.mp way
  cases looks <;> cases inert

theorem KeysEnd.of_isInert (inert : ty.isInert = true) : aliases.KeysEnd ty := by
  obtain ⟨steps, operand, evaluated, shape⟩ :=
    exists_operand fun part way => absurd way (not_transGen_of_isInert inert)
  refine .of_inert_operand evaluated (shape.elim id fun way => ?_)
  rcases reflTransGen_iff_eq_or_transGen.mp way with rfl | further
  · exact inert
  · exact absurd further (not_transGen_of_isInert inert)

/-- Enough steps for each item are enough steps for all. -/
theorem exists_mapM {α β : Type} {f : Nat → α → Option β} {holds : β → Prop} {as : List α}
    (each : ∀ a ∈ as, ∃ steps b, (∀ more, steps ≤ more → f more a = some b) ∧ holds b) :
    ∃ steps bs, (∀ more, steps ≤ more → as.mapM (f more) = some bs) ∧ ∀ b ∈ bs, holds b := by
  induction as with
  | nil => exact ⟨0, [], fun _ _ => rfl, nofun⟩
  | cons a as ih =>
      obtain ⟨first, b, found, here⟩ := each a (.head _)
      obtain ⟨rest, bs, others, later⟩ := ih fun other listed => each other (.tail _ listed)
      refine ⟨max first rest, b :: bs, fun more enough => ?_, List.forall_mem_cons.mpr ⟨here, later⟩⟩
      rw [List.mapM_cons, found more (by omega), others more (by omega)]
      rfl

section Members

variable {members : List Ty}
  (ends : ∀ part, TransGen (LooksAt aliases) (.intersectionOf members) part → aliases.KeysEnd part)

include ends

theorem exists_operands :
    ∃ steps operands,
      (∀ more, steps ≤ more →
        members.mapM (aliases.keyofOperand? (aliases.keyofSubject? more)) = some operands) ∧
      ∀ o ∈ operands, aliases.Descends (.intersectionOf members) o := by
  refine exists_mapM fun m listed => ?_
  have first : TransGen (LooksAt aliases) (.intersectionOf members) m := .single (.member listed)
  obtain ⟨steps, operand, evaluated, shape⟩ := exists_operand fun part way => ends part (first.trans way)
  exact ⟨steps, operand, evaluated, shape.imp_right first.trans_left⟩

/-- The keys of an intersection come from inert types and from types below its members. -/
theorem exists_joinedKeys :
    ∃ steps keys,
      (∀ more, steps ≤ more → aliases.operandKeys? (aliases.keyofSubject? more)
        (.intersectionOf members) = some keys) ∧
      keys.WellFormed ∧ aliases.Descends (.intersectionOf members) keys := by
  obtain ⟨steps, operands, evaluated, descend⟩ := exists_operands ends
  obtain ⟨later, others, keyed, each⟩ :
      ∃ later others, (∀ more, later ≤ more →
          (operands.filter fun ty => !ty.isObject).mapM (aliases.keyofSubject? more) = some others) ∧
        ∀ k ∈ others, k.WellFormed ∧ aliases.Descends (.intersectionOf members) k := by
    refine exists_mapM fun o listed => ?_
    rcases descend o (List.mem_of_mem_filter listed) with inert | way
    · obtain ⟨steps, keys, found, wf, further⟩ : aliases.KeysEnd o := .of_isInert inert
      exact ⟨steps, keys, found, wf, Or.inl (further.resolve_right (not_transGen_of_isInert inert))⟩
    · obtain ⟨steps, keys, found, wf, further⟩ := ends o way
      exact ⟨steps, keys, found, wf, further.imp_right way.trans⟩
  let names := (operands.flatMap Ty.propertyNames).eraseDups
  have wfAll : ∀ ty ∈ Ty.ofNames names :: others, ty.WellFormed :=
    List.forall_mem_cons.mpr ⟨ofNames_wellFormed _, fun k listed => (each k listed).1⟩
  refine ⟨max steps later, .union (.ofNames names :: others), fun more enough => ?_,
    Ty.union_wellFormed wfAll, isInert_union wfAll ?_⟩
  · rw [operandKeys?, evaluated more (by omega), Option.bind_some, joinedKeys?, keyed more (by omega)]
    rfl
  · exact List.forall_mem_cons.mpr ⟨Or.inl (isInert_ofNames _), fun k listed => (each k listed).2⟩

end Members

/-- Evaluation ends for a type if it ends for all types below. -/
theorem keysEnd_step (wf : aliases.WellFormed) (wfTy : ty.WellFormed)
    (ends : ∀ part, TransGen (LooksAt aliases) ty part → aliases.KeysEnd part) :
    aliases.KeysEnd ty := by
  obtain ⟨steps, operand, evaluated, shape⟩ := exists_operand ends
  rcases shape with inert | way
  · exact .of_inert_operand evaluated inert
  · cases operand with
    | object shape =>
        exact .of_ready_operand evaluated (fun _ => rfl) (ofNames_wellFormed _)
          (Or.inl (isInert_ofNames _))
    | record key value =>
        have below : TransGen (LooksAt aliases) ty key := .tail' way .key
        exact .of_ready_operand evaluated (fun _ => rfl)
          (wellFormed_of_transGen wf below wfTy) (Or.inr below)
    | intersectionOf members =>
        obtain ⟨later, keys, found, wfKeys, descends⟩ :=
          exists_joinedKeys fun part below => ends part (TransGen.trans_right way below)
        exact .of_operand evaluated found wfKeys (descends.imp_right (TransGen.trans_right way))
    | primitive kind => exact .of_inert_operand evaluated rfl
    | literal value => exact .of_inert_operand evaluated rfl
    | unionOf members => exact .of_inert_operand evaluated rfl
    | _ => exact .of_ready_operand evaluated (fun _ => rfl) (.primitive .string) (Or.inl rfl)

theorem KeysAcyclic.keysEnd (acyclic : aliases.KeysAcyclic) (wf : aliases.WellFormed)
    (wfTy : ty.WellFormed) : aliases.KeysEnd ty := by
  induction ty using acyclic.wellFounded.induction with
  | _ ty ih =>
      refine keysEnd_step wf wfTy fun part way => ?_
      exact ih part (transGen_swap.mp way) (wellFormed_of_transGen wf way wfTy)

end Results

/-- As `resolveKeyof`, within a number of steps. -/
def resolveKeyof? (aliases : AliasMap) (steps : Nat) : Ty → Option Ty
  | .keyof subject => aliases.keyofSubject? steps subject
  | ty => some (aliases.resolve ty)

theorem keyofSubject?_of_keysEnd (ends : aliases.KeysEnd subject) {steps : Nat}
    (enough : aliases.keyofSteps subject ≤ steps) :
    aliases.keyofSubject? steps subject = some (aliases.keyofSubject subject) := by
  obtain ⟨least, keys, found, _⟩ := ends
  have settled {steps : Nat} (enough : aliases.keyofSteps subject ≤ steps) :
      aliases.keyofSubject? steps subject = some keys :=
    keyofSubject?_of_found (found least (Nat.le_refl _)) (Or.inr enough)
  rw [settled enough, keyofSubject, settled (Nat.le_refl _), Option.getD_some]

/-- Where no name comes back to itself by what evaluation of keys looks at, the keys of every type are
found, within the number of steps that evaluation is given. -/
theorem keyof_ends (wf : aliases.WellFormed) (acyclic : aliases.KeysAcyclic) {ty : Ty}
    (wfTy : ty.WellFormed) :
    (∀ steps, aliases.keyofSteps ty ≤ steps →
      aliases.keyofSubject? steps ty = some (aliases.keyofSubject ty)) ∧
    ∀ steps, aliases.keyofSteps ty ≤ steps →
      aliases.resolveKeyof? steps ty = some (aliases.resolveKeyof ty) := by
  refine ⟨fun steps enough => keyofSubject?_of_keysEnd (acyclic.keysEnd wf wfTy) enough, ?_⟩
  intro steps enough
  cases ty with
  | keyof subject =>
      have smaller : subject.size < (Ty.keyof subject).size := Nat.lt_succ_self _
      have ends := acyclic.keysEnd wf (wfTy.child (.head _))
      refine keyofSubject?_of_keysEnd ends (Nat.le_trans ?_ enough)
      simp only [keyofSteps]
      omega
  | _ => rfl

/-- A tree refers to itself by a property, and a table of such trees by its values. -/
def forest : AliasMap where
  definitions :=
    [⟨"Tree", [], .object { properties := [⟨"label", .string, false⟩,
        ⟨"children", .array (.ref "Tree"), false⟩] }⟩,
      ⟨"Table", [], .record (.keyof (.ref "Tree")) (.ref "Table")⟩]

theorem forest_keysAcyclic : forest.KeysAcyclic := by
  intro name way
  obtain ⟨body, looks, rest⟩ := TransGen.head'_iff.mp way
  cases looks with
  | @named name d found =>
      have named : d.name = name := by simpa using List.find?_some found
      have declared := List.mem_of_find?_eq_some found
      simp only [forest, List.mem_cons, List.not_mem_nil, or_false] at declared
      -- The tree is an object and leads nowhere; the table leads to the tree by its key.
      have tree {shape : Shape Ty} {other : String} :
          ¬ ReflTransGen (LooksAt forest) (.object shape) (.ref other) := by
        intro way
        rcases way.cases_head with same | ⟨next, looks, _⟩
        · cases same
        · cases looks
      rcases declared with rfl | rfl
      · exact tree rest
      · rcases rest.cases_head with same | ⟨next, looks, rest⟩
        · cases same
        · cases looks with
          | key =>
            rcases rest.cases_head with same | ⟨next, looks, rest⟩
            · cases same
            · cases looks with
              | subject =>
                rcases rest.cases_head with same | ⟨next, looks, rest⟩
                · rw [← named] at same
                  injection same with equal
                  exact absurd equal (by decide)
                · cases looks with
                  | named found =>
                    cases found
                    exact tree rest

/-- An intersection whose second member is the key of a record, found by an evaluation of its own and
then evaluated as a name. -/
theorem forest_ends :
    let indexed : Ty := .intersectionOf [.object { properties := [⟨"id", .number, false⟩] },
      .keyof (.record (.ref "Table") .string)]
    forest.keyofSubject? 20 indexed =
        some (.unionOf [.literal (.text "id"), .keyof (.ref "Tree")]) ∧
      forest.resolveKeyof? 20 (.keyof (.ref "Tree")) =
        some (.unionOf [.literal (.text "label"), .literal (.text "children")]) := by
  intro indexed
  have wf : forest.WellFormed := by decide
  have first := (forest.keyof_ends wf forest_keysAcyclic (show indexed.WellFormed by decide)).1 20 (by decide)
  have second := (forest.keyof_ends wf forest_keysAcyclic
    (show (Ty.keyof (.ref "Tree")).WellFormed by decide)).2 20 (by decide)
  exact ⟨first, second⟩

end AliasMap

end StructuralTypes
