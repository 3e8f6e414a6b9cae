import Mathlib.Order.Monotone.Basic
import StructuralTypes.Proofs.Freshness.Compatibility
import StructuralTypes.Proofs.Ty.Nodes

/-!
Whatever is evaluated inside of an evaluation is a node of the subject or of a body, or a type whose
keys are there at once. With each further step, either another node gets its keys, or all nodes have
the keys that they will ever have.
-/

set_option autoImplicit false

namespace StructuralTypes

section Counting

variable {α : Type} {as : List α} {a : α} {n m : Nat}

/-- Of as many items, the same items. -/
theorem forall_of_countP_eq {p q : α → Bool} (implies : ∀ a ∈ as, p a = true → q a = true)
    (counts : as.countP p = as.countP q) : ∀ a ∈ as, q a = true → p a = true := by
  have both : (as.filter q).countP p = (as.filter q).length := by
    rw [List.countP_filter, ← List.countP_eq_length_filter, ← counts]
    exact List.countP_congr fun a member => by grind
  intro a member holds
  exact List.countP_eq_length.mp both a (List.mem_filter.mpr ⟨member, holds⟩)

open Classical in
/-- The number of items that do not go on so far. -/
noncomputable def stopped (goesOn : Nat → α → Prop) (as : List α) (n : Nat) : Nat :=
  as.countP fun a => decide (¬ goesOn n a)

variable {goesOn : Nat → α → Prop} (down : ∀ n, ∀ a ∈ as, goesOn (n + 1) a → goesOn n a)

include down

theorem goesOn_of_le (fewer : n ≤ m) (listed : a ∈ as) (further : goesOn m a) : goesOn n a := by
  induction fewer with
  | refl => exact further
  | step _ ih => exact ih (down _ a listed further)

theorem stopped_monotone : Monotone (stopped goesOn as) := by
  classical
  intro n m fewer
  refine List.countP_mono_left fun a listed stop => ?_
  rw [decide_eq_true_iff] at stop ⊢
  exact fun further => stop (goesOn_of_le down fewer listed further)

/-- If no more items stop, then those that go on are the same. -/
theorem goesOn_of_stopped (fewer : n ≤ m) (counts : stopped goesOn as n = stopped goesOn as m)
    (listed : a ∈ as) (now : goesOn n a) : goesOn m a := by
  classical
  by_contra later
  have back := forall_of_countP_eq (fun a listed stop => ?_) counts a listed (decide_eq_true later)
  · exact of_decide_eq_true back now
  · rw [decide_eq_true_iff] at stop ⊢
    exact fun further => stop (goesOn_of_le down fewer listed further)

variable (goesOn) in
/-- Fewer and fewer items go on, and once none of them stops at a step, none stops at the next. Then
an item that goes on for as many steps as there are items goes on for ever. -/
theorem goesOn_of_length
    (stable : ∀ n, (∀ a ∈ as, goesOn n a → goesOn (n + 1) a) →
      ∀ a ∈ as, goesOn (n + 1) a → goesOn (n + 2) a)
    (listed : a ∈ as) (long : goesOn as.length a) (n : Nat) : goesOn n a := by
  classical
  have still (n : Nat) (counts : stopped goesOn as n = stopped goesOn as (n + 1)) :
      stopped goesOn as (n + 1) = stopped goesOn as (n + 2) := by
    have same (a : α) (listed : a ∈ as) (now : goesOn n a) : goesOn (n + 1) a :=
      goesOn_of_stopped down (Nat.le_succ n) counts listed now
    refine Nat.le_antisymm (stopped_monotone down (Nat.le_succ _))
      (List.countP_mono_left fun a listed stop => ?_)
    rw [decide_eq_true_iff] at stop ⊢
    exact fun further => stop (stable n same a listed further)
  rcases Nat.le_total n as.length with fewer | more
  · exact goesOn_of_le down fewer listed long
  · have counts := Nat.stabilises_of_monotone (stopped_monotone down)
      (fun _ => List.countP_le_length) still more
    exact goesOn_of_stopped down more counts.symm listed long

end Counting

namespace AliasMap

section Subjects

/-- Types among which the evaluation of keys stays. -/
structure KeyofClosed (aliases : AliasMap) (inside : Ty → Prop) : Prop where
  primitive : ∀ kind, inside (.primitive kind)
  literal : ∀ value, inside (.literal value)
  subject : ∀ subject, inside (.keyof subject) → inside subject
  key : ∀ key value, inside (.record key value) → inside key
  unionMember : ∀ members, inside (.unionOf members) → ∀ m ∈ members, inside m
  intersectionMember : ∀ members, inside (.intersectionOf members) → ∀ m ∈ members, inside m
  resolve : ∀ ty, inside ty → inside (aliases.resolve ty)

/-- A union of such types. -/
def Known (inside : Ty → Prop) (ty : Ty) : Prop := ∀ m ∈ ty.unionMembers, inside m

variable {aliases aliases' : AliasMap} {inside : Ty → Prop} {keys keys' : Ty → Option Ty}
  {ty subject operand result : Ty}

theorem Known.of_single (single : ty.isUnion = false) (known : Known inside ty) : inside ty := by
  apply known
  rw [Ty.unionMembers_eq_self single]
  exact .head _

namespace KeyofClosed

variable (closed : aliases.KeyofClosed inside)

include closed

theorem known (found : inside ty) : Known inside ty := by
  intro m member
  cases ty with
  | unionOf members => exact closed.unionMember members found m member
  | _ =>
      cases List.mem_singleton.mp member
      exact found

theorem union {tys : List Ty} (each : ∀ ty ∈ tys, Known inside ty) :
    Known inside (.union tys) := by
  have flat : ∀ m ∈ Ty.keptMembers (Ty.distinct (tys.flatMap Ty.unionMembers)), inside m := by
    intro m member
    obtain ⟨ty, listed, part⟩ :=
      List.mem_flatMap.mp (Ty.mem_of_mem_distinct (Ty.mem_of_mem_keptMembers member))
    exact each ty listed m part
  rw [Ty.union_eq]
  split
  · exact closed.known (closed.primitive .any)
  · match Ty.keptMembers (Ty.distinct (tys.flatMap Ty.unionMembers)), flat with
    | [], _ => exact closed.known (closed.primitive .never)
    | [only], flat => exact closed.known (flat only (.head _))
    | _ :: _ :: _, flat => exact flat

theorem ofNames (names : List String) : Known inside (.ofNames names) := by
  refine closed.union (List.forall_mem_map.mpr fun name _ => ?_)
  exact closed.known (closed.literal _)

/-- The type that an operand is evaluated from: its own or what it is a reference to. -/
theorem resolved (known : Known inside ty) : Known inside (aliases.resolve ty) := by
  by_cases several : ty.isUnion = true
  · cases ty with
    | unionOf members =>
        rw [resolve_of_refName?_eq_none rfl]
        exact known
    | _ => cases several
  · exact closed.known (closed.resolve ty (known.of_single (by simpa using several)))

theorem keyofOperand? (knownKeys : ∀ s r, Known inside s → keys s = some r → Known inside r)
    (known : Known inside ty) (found : aliases.keyofOperand? keys ty = some operand) :
    Known inside operand := by
  have resolved := closed.resolved known
  rw [AliasMap.keyofOperand?] at found
  split at found
  case h_1 subject evaluated =>
    rw [evaluated] at resolved
    exact knownKeys subject operand (closed.known (closed.subject _ (resolved.of_single rfl))) found
  case h_2 =>
    cases found
    exact resolved

/-- The operands of an intersection are known, and so are the keys of those that are no objects. -/
theorem operandKeys? (knownKeys : ∀ s r, Known inside s → keys s = some r → Known inside r)
    (known : Known inside operand) (found : aliases.operandKeys? keys operand = some result) :
    Known inside result := by
  cases operand with
  | object shape =>
      cases found
      exact closed.ofNames _
  | record key value =>
      cases found
      exact closed.known (closed.key _ value (known.of_single rfl))
  | primitive kind =>
      cases kind with
      | any =>
          cases found
          refine closed.union (List.forall_mem_cons.mpr ⟨closed.known (closed.primitive .string), ?_⟩)
          exact List.forall_mem_singleton.mpr (closed.known (closed.primitive .number))
      | _ =>
          cases found
          exact closed.known (closed.primitive .string)
  | intersectionOf members =>
      obtain ⟨operands, evaluated, joined⟩ := Option.bind_eq_some_iff.mp found
      obtain ⟨others, keyed, joined⟩ := Option.bind_eq_some_iff.mp joined
      cases joined
      refine closed.union (List.forall_mem_cons.mpr ⟨closed.ofNames _, fun k member => ?_⟩)
      obtain ⟨o, listed, foundKeys⟩ := exists_of_mem_mapM keyed member
      obtain ⟨m, here, foundOperand⟩ := exists_of_mem_mapM evaluated (List.mem_of_mem_filter listed)
      have knownM := closed.known (closed.intersectionMember _ (known.of_single rfl) m here)
      exact knownKeys o k (closed.keyofOperand? knownKeys knownM foundOperand) foundKeys
  | _ =>
      cases found
      exact closed.known (closed.primitive .string)

theorem keyofSubject? (steps : Nat) (subject result : Ty) (known : Known inside subject)
    (found : aliases.keyofSubject? steps subject = some result) : Known inside result := by
  induction steps generalizing subject result with
  | zero => cases found
  | succ steps ih =>
      rw [AliasMap.keyofSubject?, keyofStep?_eq] at found
      obtain ⟨operand, evaluated, rest⟩ := Option.bind_eq_some_iff.mp found
      exact closed.operandKeys? ih (closed.keyofOperand? ih known evaluated) rest

theorem keyofSubject (known : Known inside subject) :
    Known inside (aliases.keyofSubject subject) := by
  rw [AliasMap.keyofSubject]
  cases found : aliases.keyofSubject? (aliases.keyofSteps subject) subject with
  | none => exact closed.known (closed.primitive .string)
  | some keys => exact closed.keyofSubject? _ subject keys known found

end KeyofClosed

theorem mapM_extends {α β : Type} {f g : α → Option β} {as : List α} {bs : List β}
    (extend : ∀ a ∈ as, ∀ b, f a = some b → g a = some b) (mapped : as.mapM f = some bs) :
    as.mapM g = some bs := by
  induction as generalizing bs with
  | nil => exact mapped
  | cons a as ih =>
      rw [List.mapM_cons] at mapped ⊢
      obtain ⟨first, head, rest⟩ := Option.bind_eq_some_iff.mp mapped
      obtain ⟨others, tail, rest⟩ := Option.bind_eq_some_iff.mp rest
      rw [extend a (.head _) first head, ih (fun c listed => extend c (.tail _ listed)) tail]
      exact rest

section Extension

variable (closed : aliases.KeyofClosed inside)
  (resolves : ∀ ty, Known inside ty → aliases'.resolve ty = aliases.resolve ty)
  (extend : ∀ s r, Known inside s → keys s = some r → keys' s = some r)

include closed resolves extend

theorem keyofOperand?_extends (known : Known inside ty)
    (found : aliases.keyofOperand? keys ty = some operand) :
    aliases'.keyofOperand? keys' ty = some operand := by
  have resolved := closed.resolved known
  rw [keyofOperand?, resolves ty known]
  rw [keyofOperand?] at found
  split at found
  case h_1 subject evaluated =>
    rw [evaluated] at resolved
    exact extend subject operand (closed.known (closed.subject _ (resolved.of_single rfl))) found
  case h_2 other =>
    cases shape : aliases.resolve ty with
    | keyof subject => exact absurd shape (other subject)
    | _ =>
        rw [shape] at found
        exact found

/-- What one step finds it also finds in another map, and with the keys of more subjects, if all that
it looks at is the same there. -/
theorem keyofStep?_extends (knownKeys : ∀ s r, Known inside s → keys s = some r → Known inside r)
    (known : Known inside subject)
    (found : aliases.keyofStep? keys subject = some result) :
    aliases'.keyofStep? keys' subject = some result := by
  rw [keyofStep?_eq] at found ⊢
  obtain ⟨operand, evaluated, rest⟩ := Option.bind_eq_some_iff.mp found
  have knownOperand := closed.keyofOperand? knownKeys known evaluated
  rw [keyofOperand?_extends closed resolves extend known evaluated, Option.bind_some]
  cases operand with
  | intersectionOf members =>
      obtain ⟨operands, each, joined⟩ := Option.bind_eq_some_iff.mp rest
      obtain ⟨others, keyed, joined⟩ := Option.bind_eq_some_iff.mp joined
      have knownMember (m : Ty) (listed : m ∈ members) : Known inside m :=
        closed.known (closed.intersectionMember _ (knownOperand.of_single rfl) m listed)
      have sameOperands : members.mapM (aliases'.keyofOperand? keys') = some operands :=
        mapM_extends (fun m listed o => keyofOperand?_extends closed resolves extend
          (knownMember m listed)) each
      have sameOthers : (operands.filter fun ty => !ty.isObject).mapM keys' = some others := by
        refine mapM_extends (fun o listed k => extend o k ?_) keyed
        obtain ⟨m, here, foundOperand⟩ := exists_of_mem_mapM each (List.mem_of_mem_filter listed)
        exact closed.keyofOperand? knownKeys (knownMember m here) foundOperand
      rw [operandKeys?, sameOperands, Option.bind_some, joinedKeys?, sameOthers]
      exact joined
  | primitive kind => cases kind <;> exact rest
  | _ => exact rest

end Extension

end Subjects

section Evaluation

variable {aliases aliases' : AliasMap} {inside : Ty → Prop} {subject : Ty}

/-- With more steps the same keys are found, and perhaps those of more subjects. -/
theorem keyofSubject?_extends (closed : aliases.KeyofClosed inside)
    (resolves : ∀ ty, Known inside ty → aliases'.resolve ty = aliases.resolve ty) {steps more : Nat}
    (fewer : steps ≤ more) {subject result : Ty} (known : Known inside subject)
    (found : aliases.keyofSubject? steps subject = some result) :
    aliases'.keyofSubject? more subject = some result := by
  induction steps generalizing more subject result with
  | zero => cases found
  | succ steps ih =>
      cases more with
      | zero => omega
      | succ more =>
          exact keyofStep?_extends closed resolves
            (fun s r knownS foundS => ih (Nat.le_of_succ_le_succ fewer) knownS foundS)
            (closed.keyofSubject? steps) known found

/-- A node, or a type that evaluation makes itself. -/
def Within (nodes : List Ty) (ty : Ty) : Prop :=
  ty ∈ nodes ∨ (∃ kind, ty = .primitive kind) ∨ ∃ value, ty = .literal value

variable {nodes : List Ty}

/-- The keys of what is no node are there at once. -/
theorem keyofStep?_of_known {keys keys' : Ty → Option Ty} (known : Known (Within nodes) subject)
    (outside : subject ∉ nodes) : aliases.keyofStep? keys subject = aliases.keyofStep? keys' subject := by
  have unnamed : subject.refName? = none := by
    cases subject with
    | ref name =>
        rcases known.of_single rfl with here | ⟨kind, impossible⟩ | ⟨value, impossible⟩
        · exact absurd here outside
        · cases impossible
        · cases impossible
    | _ => rfl
  rw [keyofStep?_eq, keyofStep?_eq, keyofOperand?, keyofOperand?, resolve_of_refName?_eq_none unnamed]
  by_cases several : subject.isUnion = true
  · cases subject with
    | unionOf members => rfl
    | _ => cases several
  · rcases known.of_single (by simpa using several) with here | ⟨kind, rfl⟩ | ⟨value, rfl⟩
    · exact absurd here outside
    · cases kind <;> rfl
    · rfl

section Nodes

variable (parts : Ty.PartsListed nodes) (bodies : ∀ d ∈ aliases.definitions, d.body ∈ nodes)

include parts bodies

theorem keyofClosed_within : aliases.KeyofClosed (Within nodes) := by
  have listed {ty child : Ty} (member : child ∈ ty.children)
      (single : ty.primitive? = none ∧ ty.literal? = none) (within : Within nodes ty) :
      Within nodes child := by
    rcases within with here | ⟨kind, rfl⟩ | ⟨value, rfl⟩
    · exact Or.inl (parts ty here child member)
    · cases single.1
    · cases single.2
  constructor
  · exact fun kind => Or.inr (Or.inl ⟨kind, rfl⟩)
  · exact fun value => Or.inr (Or.inr ⟨value, rfl⟩)
  · exact fun subject => listed (.head _) ⟨rfl, rfl⟩
  · exact fun key value => listed (.head _) ⟨rfl, rfl⟩
  · exact fun members within m member =>
      listed (show m ∈ (Ty.unionOf members).children from member) ⟨rfl, rfl⟩ within
  · exact fun members within m member =>
      listed (show m ∈ (Ty.intersectionOf members).children from member) ⟨rfl, rfl⟩ within
  · exact fun ty within =>
      resolve_induction (Within nodes) (fun d member => Or.inl (bodies d member)) within

/-- If no node gets its keys by a further step, then none gets them by the one after it. -/
theorem keyofSubject?_stable {steps : Nat}
    (still : ∀ ty ∈ nodes, aliases.keyofSubject? (steps + 1) ty = none →
      aliases.keyofSubject? (steps + 2) ty = none) :
    ∀ ty ∈ nodes, aliases.keyofSubject? (steps + 2) ty = none →
      aliases.keyofSubject? (steps + 3) ty = none := by
  have closed := keyofClosed_within parts bodies
  intro ty member none
  cases found : aliases.keyofSubject? (steps + 3) ty with
  | none => rfl
  | some result =>
      have back : aliases.keyofSubject? (steps + 2) ty = some result := by
        refine keyofStep?_extends closed (fun _ _ => rfl) ?_ (closed.keyofSubject? (steps + 2))
          (closed.known (Or.inl member)) found
        -- What is evaluated inside is a node that has its keys already, or has them at once.
        intro s r known foundS
        by_cases here : s ∈ nodes
        · cases before : aliases.keyofSubject? (steps + 1) s with
          | none =>
              rw [still s here before] at foundS
              cases foundS
          | some r' =>
              rw [← foundS]
              exact (keyofSubject?_extends closed (fun _ _ => rfl) (Nat.le_succ _) known before).symm
        · rw [← foundS]
          exact keyofStep?_of_known known here
      rw [none] at back
      cases back

/-- The keys of a node are found in as many steps as there are nodes, and one more, or never. -/
theorem keyofSubject?_of_nodes {steps : Nat} (enough : nodes.length ≤ steps) (member : subject ∈ nodes) :
    aliases.keyofSubject? (steps + 1) subject = aliases.keyofSubject? (nodes.length + 1) subject := by
  have closed := keyofClosed_within parts bodies
  have keeps {n m : Nat} (fewer : n ≤ m) {ty keys : Ty} (here : ty ∈ nodes)
      (found : aliases.keyofSubject? n ty = some keys) : aliases.keyofSubject? m ty = some keys :=
    keyofSubject?_extends closed (fun _ _ => rfl) fewer (closed.known (Or.inl here)) found
  cases found : aliases.keyofSubject? (nodes.length + 1) subject with
  | some result => exact keeps (Nat.succ_le_succ enough) member found
  | none =>
      refine goesOn_of_length (fun n ty => aliases.keyofSubject? (n + 1) ty = none) ?_
        (fun n => keyofSubject?_stable parts bodies) member found steps
      intro n ty here none
      cases before : aliases.keyofSubject? (n + 1) ty with
      | none => rfl
      | some keys =>
          rw [keeps (Nat.le_succ _) here before] at none
          cases none

end Nodes

/-- With more steps than evaluation is given nothing else is found. -/
theorem keyofSubject?_of_le {steps : Nat} (enough : aliases.keyofSteps subject ≤ steps) :
    aliases.keyofSubject? steps subject =
      aliases.keyofSubject? (aliases.keyofSteps subject) subject := by
  let roots := subject :: aliases.definitions.map (·.body)
  let nodes := roots.flatMap Ty.nodes
  have parts : Ty.PartsListed nodes := Ty.partsListed_flatMap_nodes roots
  have listed (ty : Ty) (root : ty ∈ roots) : ty ∈ nodes :=
    List.mem_flatMap.mpr ⟨ty, root, ty.self_mem_nodes⟩
  have bodies (d : AliasDefinition) (member : d ∈ aliases.definitions) : d.body ∈ nodes :=
    listed d.body (.tail _ (List.mem_map_of_mem member))
  have steps_eq : aliases.keyofSteps subject = nodes.length + 2 := by
    rw [keyofSteps, Ty.length_flatMap_nodes, Ty.sizeAll, bodySize]
  have here := listed subject (.head _)
  rw [steps_eq] at enough ⊢
  obtain ⟨more, rfl⟩ := Nat.exists_eq_add_of_le' (Nat.le_trans (Nat.le_add_left 1 _) enough)
  rw [keyofSubject?_of_nodes parts bodies (by omega) here,
    keyofSubject?_of_nodes parts bodies (Nat.le_succ _) here]

/-- Two maps that resolve alike whatever evaluation comes to evaluate alike. -/
theorem keyofSubject_eq_of_resolves (closed : aliases.KeyofClosed inside)
    (resolves : ∀ ty, Known inside ty → aliases'.resolve ty = aliases.resolve ty)
    (known : Known inside subject) : aliases'.keyofSubject subject = aliases.keyofSubject subject := by
  have closed' : aliases'.KeyofClosed inside :=
    { closed with resolve := fun ty here => resolves ty (closed.known here) ▸ closed.resolve ty here }
  let steps := max (aliases.keyofSteps subject) (aliases'.keyofSteps subject)
  have same : aliases'.keyofSubject? steps subject = aliases.keyofSubject? steps subject := by
    cases found : aliases.keyofSubject? steps subject with
    | some result => exact keyofSubject?_extends closed resolves (Nat.le_refl _) known found
    | none =>
        cases found' : aliases'.keyofSubject? steps subject with
        | none => rfl
        | some result =>
            have back := keyofSubject?_extends closed' (fun ty here => (resolves ty here).symm)
              (Nat.le_refl _) known found'
            rw [found] at back
            cases back
  rw [keyofSubject, keyofSubject, ← keyofSubject?_of_le (Nat.le_max_right _ _), same,
    keyofSubject?_of_le (Nat.le_max_left _ _)]

end Evaluation

end AliasMap

end StructuralTypes
