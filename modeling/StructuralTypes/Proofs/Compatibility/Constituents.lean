import StructuralTypes.Alias.Validate
import StructuralTypes.Proofs.Compatibility.Literal

set_option autoImplicit false

namespace StructuralTypes

/-- The members of a union or an intersection. -/
def Ty.joined : Ty → List Ty
  | .unionOf members => members
  | .intersectionOf members => members
  | _ => []

/-- The concrete types that a target consists of: the target itself, and with each union or
intersection its members. -/
inductive Constituent (aliases : AliasMap) (target : Ty) : Ty → Prop
  | whole : Constituent aliases target (aliases.concrete target)
  | member {node m : Ty} (inside : Constituent aliases target node) (listed : m ∈ node.joined) :
    Constituent aliases target (aliases.concrete m)

/-- A set of concrete unions and intersections that never leads to anything else: of a union, some
member is in the set, and of an intersection all are. -/
def Unending (aliases : AliasMap) (nodes : Set Ty) : Prop :=
  ∀ node ∈ nodes,
    (∃ members, node = .unionOf members ∧ ∃ m ∈ members, aliases.concrete m ∈ nodes) ∨
      ∃ members, node = .intersectionOf members ∧ ∀ m ∈ members, aliases.concrete m ∈ nodes

/-- The target goes on for ever through members of unions and intersections, as that of
`type T = T | string` does. -/
def Endless (aliases : AliasMap) (target : Ty) : Prop :=
  ∃ nodes, aliases.concrete target ∈ nodes ∧ Unending aliases nodes

section Keywords

variable {aliases : AliasMap} {holds : Ty → Ty → Prop} {kind : Primitive} {ty target : Ty}

/-- The types that a keyword type goes to. -/
inductive AboveKeyword (holds : Ty → Ty → Prop) (kind : Primitive) : Ty → Prop
  | any : AboveKeyword holds kind .any
  | self : AboveKeyword holds kind (.primitive kind)
  | union {members : List Ty} {m : Ty} (listed : m ∈ members)
    (accepts : m.Same (.primitive kind) ∨ holds (.primitive kind) m) :
    AboveKeyword holds kind (.unionOf members)
  | intersection {members : List Ty} (each : ∀ m ∈ members, holds (.primitive kind) m) :
    AboveKeyword holds kind (.intersectionOf members)

theorem aboveKeyword_of_justified (notAny : kind ≠ .any) (notNever : kind ≠ .never)
    (justified : Justified aliases holds (.primitive kind) ty) : AboveKeyword holds kind ty := by
  cases justified with
  | anyTarget => exact .any
  | anyValue => exact absurd rfl notAny
  | neverValue => exact absurd rfl notNever
  | equal same =>
      rw [Ty.eq_of_same_primitive same]
      exact .self
  | byShape inhabited rule =>
      cases rule with
      | toUnion single listed accepts => exact .union listed accepts
      | toIntersection single each => exact .intersection each
      | primitive => exact .self
      | sameClass valueShape => cases valueShape
      | shapes valueShape => cases valueShape

variable (wf : aliases.WellFormed) (notAny : kind ≠ .any) (notNever : kind ≠ .never)

include wf notAny notNever

theorem Established.aboveKeyword (wfTarget : target.WellFormed)
    (known : Established aliases (.primitive kind) target) :
    AboveKeyword (fun v t => Query.WellFormed ⟨v, t⟩ ∧ Established aliases v t) kind
      (aliases.concrete target) := by
  obtain ⟨v, t, left, right, justified⟩ := known.exists_justified wf ⟨.primitive kind, wfTarget⟩
  rw [concrete_primitive] at left
  cases Ty.eq_of_same_primitive left
  have wfConcrete := AliasMap.concrete_wellFormed wf wfTarget
  have wfT := wfConcrete.of_same right
  have turned := Ty.same_symm wfConcrete wfT right
  apply aboveKeyword_of_justified notAny notNever
  refine justified.carry (.primitive kind) wfT (Ty.same_self _) turned ?_ ?_
  · intro a b a' b' premise sameA sameB
    exact ⟨⟨premise.1.value.of_same sameA, premise.1.target.of_same sameB⟩,
      premise.2.of_same wf premise.1 sameA sameB⟩
  · intro merged shape shaped merges
    have single : aliases.merge (.primitive kind) = .notMergeable := by
      cases kind <;> first | rfl | exact absurd rfl notAny
    rw [single] at merges
    cases merges

/-- The constituents to which the keyword type goes. -/
def acceptingNodes (aliases : AliasMap) (kind : Primitive) (target : Ty) : Set Ty :=
  { node | ∃ m : Ty, node = aliases.concrete m ∧ m.WellFormed ∧
    Constituent aliases target (aliases.concrete m) ∧ Established aliases (.primitive kind) m }

/-- Where neither `any` nor the keyword type is a constituent, each of these leads only to
others. -/
theorem unending_of_unlisted (noAny : ¬ Constituent aliases target .any)
    (unlisted : ¬ Constituent aliases target (.primitive kind)) :
    Unending aliases (acceptingNodes aliases kind target) := by
  rintro node ⟨n, rfl, wfN, inside, known⟩
  have above := known.aboveKeyword wf notAny notNever wfN
  have wfNode := AliasMap.concrete_wellFormed wf wfN
  generalize aliases.concrete n = node at inside above wfNode
  cases above with
  | any => exact absurd inside noAny
  | self => exact absurd inside unlisted
  | @union members m listed accepts =>
      have wfMember := wfNode.unionMember listed
      refine Or.inl ⟨members, rfl, m, listed, m, rfl, wfMember, .member inside listed, ?_⟩
      rcases accepts with same | premise
      · have turned := Ty.same_symm wfMember (.primitive kind) same
        rw [Ty.eq_of_same_primitive turned] at listed
        have constituent := Constituent.member inside listed
        rw [concrete_primitive] at constituent
        exact absurd constituent unlisted
      · exact premise.2
  | @intersection members each =>
      refine Or.inr ⟨members, rfl, fun m listed => ⟨m, rfl, wfNode.intersectionMember listed, ?_⟩⟩
      exact ⟨.member inside listed, (each m listed).2⟩

end Keywords

namespace Context

variable (ctx : Context)

/-- A target that never comes to an end accepts every keyword type. -/
theorem accepts_of_endless (kind : Primitive) {target : Ty} (endless : Endless ctx.aliases target) :
    ctx.Accepts (.primitive kind) target := by
  obtain ⟨nodes, inside, unending⟩ := endless
  let pairs : Set Query := { p | p.value = .primitive kind ∧ p.target ∈ nodes }
  refine ctx.accepts_of_justified pairs ?_ ⟨concrete_primitive kind, inside⟩
  rintro ⟨value, node⟩ ⟨rfl, member⟩
  rcases unending node member with ⟨members, rfl, m, listed, further⟩ | ⟨members, rfl, each⟩
  · exact .byShape rfl (.toUnion rfl listed (Or.inr (Or.inl ⟨concrete_primitive kind, further⟩)))
  · refine .byShape rfl (.toIntersection rfl fun m listed => ?_)
    exact Or.inl ⟨concrete_primitive kind, each m listed⟩

/-- A keyword type goes only to a target with itself or `any` among its constituents, or to one that
goes on for ever through members; and to such a target it does go. -/
theorem keyword_listed_or_endless (wf : ctx.aliases.WellFormed) {kind : Primitive}
    (notAny : kind ≠ .any) (notNever : kind ≠ .never) {target : Ty} (wfTarget : target.WellFormed) :
    ((ctx.compatible (.primitive kind) target).value = true →
      Constituent ctx.aliases target .any ∨ Constituent ctx.aliases target (.primitive kind) ∨
        Endless ctx.aliases target) ∧
    (Endless ctx.aliases target → (ctx.compatible (.primitive kind) target).cut = false →
      (ctx.compatible (.primitive kind) target).value = true) := by
  constructor
  · intro accepted
    by_cases anyInside : Constituent ctx.aliases target .any
    · exact Or.inl anyInside
    · by_cases listed : Constituent ctx.aliases target (.primitive kind)
      · exact Or.inr (Or.inl listed)
      · have unending := unending_of_unlisted wf notAny notNever anyInside listed
        have known : Established ctx.aliases (.primitive kind) target :=
          established_of_compatible accepted
        have inside : ctx.aliases.concrete target ∈ acceptingNodes ctx.aliases kind target :=
          ⟨target, rfl, wfTarget, .whole, known⟩
        exact Or.inr (Or.inr ⟨_, inside, unending⟩)
  · intro endless finished
    exact ctx.compatible_of_accepts (ctx.accepts_of_endless kind endless) finished

/-- A chain that refers to itself inside of an object, and ends with one of two values that have a
name of their own. -/
def chain : Context where
  aliases :=
    { definitions :=
        [⟨"Chain", [],
            .unionOf [.object { properties := [⟨"next", .ref "Chain", false⟩] }, .ref "End"]⟩,
          ⟨"End", [], .unionOf [.null, .undefined]⟩] }

theorem chain_lists_null :
    (chain.compatible .null (.ref "Chain")).value = true ∧
      (Constituent chain.aliases (.ref "Chain") .any ∨
        Constituent chain.aliases (.ref "Chain") .null ∨
        Endless chain.aliases (.ref "Chain")) := by
  have accepted : (chain.compatible .null (.ref "Chain")).value = true := by decide +kernel
  have wf : chain.aliases.WellFormed := by decide +kernel
  exact ⟨accepted,
    (chain.keyword_listed_or_endless wf (by decide) (by decide) (.ref "Chain")).1 accepted⟩

/-- A name that is one of its own alternatives. Its definition is in order: the chain of references
from the name ends with the union. -/
def loop : Context where
  aliases := { definitions := [⟨"Loop", [], .unionOf [.ref "Loop", .string]⟩] }

theorem loop_accepts_number :
    loop.aliases.WellFormed ∧ loop.aliases.validate = [] ∧
      (loop.compatible .number (.ref "Loop")).value = true ∧
      (loop.compatible .number (.ref "Loop")).cut = false ∧
      ¬ Constituent loop.aliases (.ref "Loop") .any ∧
      ¬ Constituent loop.aliases (.ref "Loop") .number := by
  have two (ty : Ty) (inside : Constituent loop.aliases (.ref "Loop") ty) :
      ty = .unionOf [.ref "Loop", .string] ∨ ty = .string := by
    induction inside with
    | whole => exact Or.inl rfl
    | member _ listed ih =>
        rcases ih with rfl | rfl
        · simp only [Ty.joined, List.mem_cons, List.not_mem_nil, or_false] at listed
          rcases listed with rfl | rfl
          · exact Or.inl rfl
          · exact Or.inr rfl
        · cases listed
  refine ⟨by decide +kernel, rfl, by decide +kernel, by decide +kernel, ?_, ?_⟩
  · intro inside
    rcases two _ inside with equal | equal <;> cases equal
  · intro inside
    rcases two _ inside with equal | equal <;> cases equal

end Context

end StructuralTypes
