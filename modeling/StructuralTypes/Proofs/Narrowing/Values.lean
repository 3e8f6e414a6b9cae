import StructuralTypes.Narrowing
import StructuralTypes.Proofs.Compatibility.Justified
import StructuralTypes.Proofs.NormalForm.Aliases
import StructuralTypes.Proofs.Ty.Congruence

set_option autoImplicit false

namespace StructuralTypes

inductive Value (Obj Fn : Type) where
  | text (value : String)
  | number (value : Number) (proper : value.isNaN = false)
  | boolean (value : Bool)
  | null
  | undefined
  | object (value : Obj)
  | function (value : Fn)

namespace Value

variable {Obj Fn : Type}

/-- What `typeof` gives; `null` is an object to it. -/
def typeofName : Value Obj Fn → String
  | text _ => "string"
  | number _ _ => "number"
  | boolean _ => "boolean"
  | undefined => "undefined"
  | null | object _ => "object"
  | function _ => "function"

def isNullish : Value Obj Fn → Bool
  | null | undefined => true
  | _ => false

/-- Whether a condition on the value itself holds. -/
def isTruthy : Value Obj Fn → Bool
  | text s => s != ""
  | number n _ => !n.isZero
  | boolean b => b
  | null | undefined => false
  | object _ | function _ => true

/-- The value is that of a literal. The two zeros are one number. -/
def equals : Value Obj Fn → Literal → Bool
  | text s, .text t => s == t
  | number m _, .number n => m.same n
  | boolean b, .boolean c => b == c
  | _, _ => false

end Value

/-- What a condition comes to on a value. Other values than those of literals are not compared, and
guard functions are not run. -/
def Guard.evaluate? {Obj Fn : Type} (x : Value Obj Fn) : Guard → Option Bool
  | .typeofIs name => some (x.typeofName == name)
  | .equals (.literal l) => some (x.equals l)
  | .nullish => some x.isNullish
  | .truthy => some x.isTruthy
  | .equals _ | .is _ => none

/-- Arrays, tuples, objects and records. -/
def Ty.isStructured : Ty → Bool
  | array _ | tuple _ | object _ | record _ _ => true
  | _ => false

/-- A reading of the types whose values are opaque. -/
structure Reading (Obj Fn : Type) where
  objects : Ty → Obj → Prop
  functions : Signature Ty → Fn → Prop

namespace Reading

/-- The values of a type. The types that are not listed hold none. -/
inductive Holds {Obj Fn : Type} (reading : Reading Obj Fn) : Ty → Value Obj Fn → Prop
  | any (x : Value Obj Fn) : Holds reading .any x
  | string (s : String) : Holds reading .string (.text s)
  | number (n : Number) (proper : n.isNaN = false) : Holds reading .number (.number n proper)
  | boolean (b : Bool) : Holds reading .boolean (.boolean b)
  | null : Holds reading .null .null
  | undefined : Holds reading .undefined .undefined
  | literal {l : Literal} {x : Value Obj Fn} (equal : x.equals l = true) :
    Holds reading (.literal l) x
  | structured {ty : Ty} {o : Obj} (kind : ty.isStructured = true) (inside : reading.objects ty o) :
    Holds reading ty (.object o)
  | anyFunction (f : Fn) : Holds reading .anyFunction (.function f)
  | function {signature : Signature Ty} {f : Fn} (inside : reading.functions signature f) :
    Holds reading (.function signature) (.function f)
  | union {members : List Ty} {m : Ty} {x : Value Obj Fn} (member : m ∈ members)
    (held : Holds reading m x) : Holds reading (.unionOf members) x

end Reading

section Literals

variable {Obj Fn : Type} {x : Value Obj Fn} {l : Literal}

namespace Value

/-- A value and a literal that are equal are of one kind. -/
theorem exists_of_equals (equal : x.equals l = true) :
    (∃ s, x = .text s ∧ l = .text s) ∨
      (∃ m n proper, x = .number m proper ∧ l = .number n ∧ m.same n = true) ∨
        ∃ b, x = .boolean b ∧ l = .boolean b := by
  unfold equals at equal
  split at equal
  · cases eq_of_beq equal
    exact Or.inl ⟨_, rfl, rfl⟩
  · exact Or.inr (Or.inl ⟨_, _, _, rfl, rfl, equal⟩)
  · cases eq_of_beq equal
    exact Or.inr (Or.inr ⟨_, rfl, rfl⟩)
  · cases equal

theorem equals_of_same {l' : Literal} (equal : x.equals l = true) (same : l.same l' = true) :
    x.equals l' = true := by
  cases l' <;> rcases exists_of_equals equal with
    ⟨s, rfl, rfl⟩ | ⟨m, n, proper, rfl, rfl, number⟩ | ⟨b, rfl, rfl⟩ <;>
    simp_all [equals, Literal.same, Number.same_iff]

theorem same_of_equals {l' : Literal} (equal : x.equals l = true) (equal' : x.equals l' = true) :
    l.same l' = true := by
  rcases exists_of_equals equal with
    ⟨s, rfl, rfl⟩ | ⟨m, n, proper, rfl, rfl, number⟩ | ⟨b, rfl, rfl⟩ <;>
    cases l' <;> simp_all [equals, Literal.same, Number.same_iff]

theorem typeofName_of_equals (equal : x.equals l = true) : x.typeofName = l.base.keyword := by
  rcases exists_of_equals equal with ⟨s, rfl, rfl⟩ | ⟨m, n, _, rfl, rfl, _⟩ | ⟨b, rfl, rfl⟩ <;> rfl

theorem isNullish_of_equals (equal : x.equals l = true) : x.isNullish = false := by
  rcases exists_of_equals equal with ⟨s, rfl, rfl⟩ | ⟨m, n, _, rfl, rfl, _⟩ | ⟨b, rfl, rfl⟩ <;> rfl

/-- Of the numbers that are equal to a value, only the zeros are false in a condition. -/
theorem isTruthy_of_equals (equal : x.equals l = true) : x.isTruthy = !l.isFalsy := by
  rcases exists_of_equals equal with
    ⟨s, rfl, rfl⟩ | ⟨m, n, proper, rfl, rfl, number⟩ | ⟨b, rfl, rfl⟩
  · rw [isTruthy, Literal.isFalsy, bne, Bool.eq_iff_iff]
    simp
  · have zeros : n.isFalsy = m.isZero := by
      rw [Number.same_iff_bits] at number
      rw [Number.isFalsy]
      obtain ⟨m⟩ := m
      obtain ⟨n⟩ := n
      grind [Number.isZero_of_isNaN]
    rw [isTruthy, Literal.isFalsy, zeros]
  · rw [isTruthy, Literal.isFalsy, Bool.not_not]

end Value

theorem Reading.Holds.base {reading : Reading Obj Fn} (equal : x.equals l = true) :
    reading.Holds (.primitive l.base) x := by
  rcases Value.exists_of_equals equal with
    ⟨s, rfl, rfl⟩ | ⟨m, n, proper, rfl, rfl, number⟩ | ⟨b, rfl, rfl⟩
  · exact .string s
  · exact .number m proper
  · exact .boolean b

end Literals

namespace Reading

variable {Obj Fn : Type} {reading : Reading Obj Fn} {x : Value Obj Fn}

section Unions

open Ty

theorem Holds.isNever {ty : Ty} (held : reading.Holds ty x) : ty.isNever = false := by
  cases held with
  | structured kind => cases ty <;> first | rfl | cases kind
  | _ => rfl

theorem holds_literal_iff {l : Literal} : reading.Holds (.literal l) x ↔ x.equals l = true := by
  constructor
  · intro held
    cases held with
    | literal equal => exact equal
    | structured kind => cases kind
  · exact .literal

/-- A literal that is dropped from a union stood next to its keyword type. -/
theorem exists_mem_keptMembers {members : List Ty} {m : Ty} (member : m ∈ members)
    (held : reading.Holds m x) : ∃ kept ∈ keptMembers members, reading.Holds kept x := by
  have inhabited : m ∈ members.filter fun ty => !ty.isNever :=
    List.mem_filter.mpr ⟨member, by rw [held.isNever]; rfl⟩
  by_cases absorbed : isAbsorbed (members.filter fun ty => !ty.isNever) m = true
  · cases m with
    | literal l =>
        obtain ⟨base, listed, isBase⟩ := List.any_eq_true.mp absorbed
        have keyword : base = .primitive l.base := by
          cases base with
          | primitive kind => simpa [primitive?] using isBase
          | _ => cases isBase
        cases keyword
        have equal : x.equals l = true := holds_literal_iff.mp held
        exact ⟨.primitive l.base, List.mem_filter.mpr ⟨listed, rfl⟩, .base equal⟩
    | _ => cases absorbed
  · exact ⟨m, List.mem_filter.mpr ⟨inhabited, by simpa using absorbed⟩, held⟩

theorem Holds.collapse {members : List Ty} {m : Ty} (member : m ∈ members)
    (held : reading.Holds m x) : reading.Holds (Ty.collapse never unionOf members) x := by
  match members with
  | [only] =>
      cases List.mem_singleton.mp member
      exact held
  | _ :: _ :: _ => exact .union member held

/-- A union of types of which equal ones hold the same values loses no value. -/
theorem Holds.unionOfFlat {tys : List Ty} {ty : Ty} (flat : ∀ a ∈ tys, a.isUnion = false)
    (alike : ∀ a ∈ tys, ∀ b ∈ tys, a.Same b → reading.Holds b x → reading.Holds a x)
    (listed : ty ∈ tys) (held : reading.Holds ty x) : reading.Holds (Ty.union tys) x := by
  rw [union_eq, flatMap_unionMembers flat]
  by_cases anyInside : (distinct tys).any isAny = true
  · rw [if_pos anyInside]
    exact .any x
  · rw [if_neg anyInside]
    -- of the types that equal `ty`, the first is the one that is kept
    obtain ⟨first, inside, equal⟩ := (distinct_sameSet tys).back ty listed
    have heldFirst := alike first (mem_of_mem_distinct inside) ty listed equal held
    obtain ⟨kept, member, heldKept⟩ := exists_mem_keptMembers inside heldFirst
    exact .collapse member heldKept

end Unions

section Parts

variable {source : Ty}

/-- What narrowing leaves of a source: members of it, and literals. -/
def PartOf (source ty : Ty) : Prop := ty ∈ source.unionMembers ∨ ty.isLiteral = true

theorem PartOf.isUnion (wf : source.WellFormed) {ty : Ty} (part : PartOf source ty) :
    ty.isUnion = false := by
  rcases part with member | isLiteral
  · exact wf.unionMembers_flat member
  · cases ty with
    | literal l => rfl
    | _ => cases isLiteral

theorem isLiteral_same {a b : Ty} (same : a.Same b) : a.isLiteral = b.isLiteral := by
  cases Ty.sameNode_of_same same <;> rfl

/-- A reading may tell equal types apart, but no two members of a source are equal. -/
theorem Holds.of_same_part (wf : source.WellFormed) {a b : Ty} (partA : PartOf source a)
    (partB : PartOf source b) (same : a.Same b) (held : reading.Holds b x) : reading.Holds a x := by
  by_cases isLiteral : a.isLiteral = true
  · have otherLiteral : b.isLiteral = true := by rw [← isLiteral_same same, isLiteral]
    cases a with
    | literal l =>
        cases b with
        | literal l' =>
            have equal : x.equals l' = true := holds_literal_iff.mp held
            exact .literal (Value.equals_of_same equal (Literal.same_symm same))
        | _ => cases otherLiteral
    | _ => cases isLiteral
  · have memberA : a ∈ source.unionMembers := partA.resolve_right isLiteral
    have memberB : b ∈ source.unionMembers := by
      rw [isLiteral_same same] at isLiteral
      exact partB.resolve_right isLiteral
    rw [wf.eq_of_same_members memberA memberB same]
    exact held

theorem Holds.unionOfParts (wf : source.WellFormed) {tys : List Ty} {ty : Ty}
    (parts : ∀ a ∈ tys, PartOf source a) (listed : ty ∈ tys) (held : reading.Holds ty x) :
    reading.Holds (Ty.union tys) x := by
  refine .unionOfFlat (fun a inside => (parts a inside).isUnion wf) ?_ listed held
  intro a insideA b insideB same
  exact Holds.of_same_part wf (parts a insideA) (parts b insideB) same

theorem Holds.unionOfFilter (wf : source.WellFormed) {keep : Ty → Bool} {m : Ty}
    (member : m ∈ source.unionMembers) (held : reading.Holds m x) (kept : keep m = true) :
    reading.Holds (Ty.union (source.unionMembers.filter keep)) x := by
  refine .unionOfParts wf (fun a inside => Or.inl (List.mem_of_mem_filter inside)) ?_ held
  exact List.mem_filter.mpr ⟨member, kept⟩

theorem Holds.unionOfFilterMap (wf : source.WellFormed) {part? : Ty → Option Ty}
    (parts : ∀ m part, part? m = some part → part = m ∨ part.isLiteral = true) {m : Ty}
    (member : m ∈ source.unionMembers) (left : ∃ part, part? m = some part ∧ reading.Holds part x) :
    reading.Holds (Ty.union (source.unionMembers.filterMap part?)) x := by
  obtain ⟨part, found, held⟩ := left
  refine .unionOfParts wf ?_ (List.mem_filterMap.mpr ⟨m, member, found⟩) held
  intro a inside
  obtain ⟨n, listed, own⟩ := List.mem_filterMap.mp inside
  rcases parts n a own with rfl | isLiteral
  · exact Or.inl listed
  · exact Or.inr isLiteral

end Parts

section Members

variable {m : Ty} (proper : m.isAny = false) (single : m.isUnion = false)

include proper single

theorem Holds.hasTypeof (held : reading.Holds m x) (name : String) :
    m.hasTypeof name = (x.typeofName == name) := by
  cases held with
  | any => cases proper
  | union => cases single
  | literal equal => rw [Ty.hasTypeof, Value.typeofName_of_equals equal]
  | structured kind =>
      have object : m.hasTypeof name = (name == "object") := by
        cases m <;> first | rfl | exact Bool.noConfusion kind
      rw [object, Value.typeofName, BEq.comm]
  | anyFunction => rw [Ty.hasTypeof, Value.typeofName, BEq.comm]
  | function => rw [Ty.hasTypeof, Value.typeofName, BEq.comm]
  | _ => rfl

theorem Holds.isNullish (held : reading.Holds m x) : m.isNullish = x.isNullish := by
  cases held with
  | any => cases proper
  | union => cases single
  | literal equal =>
      rw [Value.isNullish_of_equals equal]
      rfl
  | structured kind => cases m <;> first | rfl | exact Bool.noConfusion kind
  | _ => rfl

theorem Holds.truthyPart (held : reading.Holds m x) (truthy : x.isTruthy = true) :
    ∃ part, m.truthyPart? = some part ∧ reading.Holds part x := by
  cases held with
  | any => cases proper
  | union => cases single
  | boolean b =>
      refine ⟨_, rfl, .literal ?_⟩
      rw [Value.equals]
      exact beq_iff_eq.mpr truthy
  | null => cases truthy
  | undefined => cases truthy
  | @literal l _ equal =>
      rw [Value.isTruthy_of_equals equal, Bool.not_eq_true'] at truthy
      refine ⟨_, ?_, .literal equal⟩
      rw [Ty.truthyPart?, truthy]
      rfl
  | structured kind inside =>
      refine ⟨m, ?_, .structured kind inside⟩
      cases m <;> first | rfl | exact Bool.noConfusion kind
  | string => exact ⟨_, rfl, .string _⟩
  | number => exact ⟨_, rfl, .number _ _⟩
  | anyFunction => exact ⟨_, rfl, .anyFunction _⟩
  | function inside => exact ⟨_, rfl, .function inside⟩

theorem Holds.falsyPart (held : reading.Holds m x) (falsy : x.isTruthy = false) :
    ∃ part, m.falsyPart? = some part ∧ reading.Holds part x := by
  cases held with
  | any => cases proper
  | union => cases single
  | boolean b =>
      refine ⟨_, rfl, .literal ?_⟩
      rw [Value.equals]
      exact beq_iff_eq.mpr falsy
  | string s =>
      refine ⟨_, rfl, .literal ?_⟩
      simpa [Value.equals, Value.isTruthy] using falsy
  | number n nonNaN =>
      -- both zeros are values of the literal `0`, and `NaN` is not a value
      refine ⟨_, rfl, .literal ?_⟩
      have isZero : n.isZero = true := by simpa [Value.isTruthy] using falsy
      rw [Value.equals, Number.same_iff_bits]
      exact Or.inr (Or.inl ⟨isZero, rfl⟩)
  | null => exact ⟨_, rfl, .null⟩
  | undefined => exact ⟨_, rfl, .undefined⟩
  | literal equal =>
      rw [Value.isTruthy_of_equals equal, Bool.not_eq_false'] at falsy
      refine ⟨_, ?_, .literal equal⟩
      rw [Ty.falsyPart?, falsy]
      rfl
  | _ => cases falsy

theorem Holds.withoutLiteral {l : Literal} (held : reading.Holds m x)
    (different : x.equals l = false) :
    ∃ part, Ty.withoutLiteral? (.literal l) m = some part ∧ reading.Holds part x := by
  have unequal : m.same (.literal l) = false := by
    rw [Bool.eq_false_iff]
    intro same
    cases m with
    | literal own =>
        have equal := Value.equals_of_same (holds_literal_iff.mp held) same
        rw [different] at equal
        cases equal
    | _ => cases same
  unfold Ty.withoutLiteral?
  rw [unequal, if_neg Bool.false_ne_true]
  split
  case h_1 _ b own =>
    -- `boolean` without one of its two literals is the other one
    cases own
    cases held with
    | boolean c =>
        refine ⟨_, rfl, .literal ?_⟩
        rw [Value.equals] at different ⊢
        cases b <;> cases c <;> first | rfl | cases different
    | structured kind => cases kind
  case h_2 => exact ⟨_, rfl, held⟩

/-- A value of a literal is held by an equal literal or by the keyword type. -/
theorem Holds.same_or_base {l : Literal} (held : reading.Holds m x) (equal : x.equals l = true) :
    m.Same (.literal l) ∨ m = .primitive l.base := by
  cases held with
  | any => cases proper
  | union => cases single
  | literal own => exact Or.inl (Value.same_of_equals own equal)
  | _ =>
      rcases Value.exists_of_equals equal with
        ⟨s, same, rfl⟩ | ⟨m, n, proper, same, rfl, _⟩ | ⟨b, same, rfl⟩ <;> cases same <;>
        exact Or.inr rfl

end Members

section Sources

variable {source : Ty}

theorem Holds.concrete_eq_self (aliases : AliasMap) (held : reading.Holds source x) :
    aliases.concrete source = source := by
  cases held with
  | structured kind =>
      cases source <;> first
        | exact AliasMap.concrete_eq_self rfl fun _ => Ty.noConfusion
        | exact Bool.noConfusion kind
  | _ => exact AliasMap.concrete_eq_self rfl fun _ => Ty.noConfusion

/-- A value of a source other than `any` is a value of one of its members. -/
theorem Holds.any_or_member (wf : source.WellFormed) (held : reading.Holds source x) :
    source = .any ∨ source.isAny = false ∧
      ∃ m ∈ source.unionMembers, m.isAny = false ∧ m.isUnion = false ∧ reading.Holds m x := by
  by_cases isAny : source.isAny = true
  · exact Or.inl ((isAny_iff source).mp isAny)
  · rw [Bool.not_eq_true] at isAny
    refine Or.inr ⟨isAny, ?_⟩
    cases source with
    | unionOf members =>
        cases held with
        | union member held =>
            exact ⟨_, member, (wf.node.proper _ member).1, wf.node.flat _ member, held⟩
        | structured kind => cases kind
    | _ => exact ⟨_, List.mem_singleton_self _, isAny, rfl, held⟩

end Sources

end Reading

namespace Ty

theorem truthyPart?_part (m part : Ty) (found : m.truthyPart? = some part) :
    part = m ∨ part.isLiteral = true := by
  unfold truthyPart? at found
  split at found
  · cases found
    exact Or.inr rfl
  · split at found <;> cases found
    exact Or.inl rfl
  · split at found <;> cases found
    exact Or.inl rfl
  · cases found
    exact Or.inl rfl

theorem falsyPart?_part (m part : Ty) (found : m.falsyPart? = some part) :
    part = m ∨ part.isLiteral = true := by
  unfold falsyPart? at found
  split at found
  · cases found
    exact Or.inr rfl
  · cases found
    exact Or.inr rfl
  · cases found
    exact Or.inr rfl
  · split at found <;> cases found
    exact Or.inl rfl
  · split at found <;> cases found
    exact Or.inl rfl
  · cases found

theorem withoutLiteral?_part (literal m part : Ty) (found : withoutLiteral? literal m = some part) :
    part = m ∨ part.isLiteral = true := by
  unfold withoutLiteral? at found
  split at found
  · cases found
  · split at found <;> cases found
    · exact Or.inr rfl
    · exact Or.inl rfl

end Ty

namespace AliasMap

/-- A literal is accepted where its keyword type is expected, whatever the names stand for. -/
theorem compatible_base (aliases : AliasMap) (l : Literal) :
    (aliases.narrowing.compatible (.literal l) (.primitive l.base)).value = true := by
  have source : aliases.concrete (.literal l) = .literal l :=
    concrete_eq_self rfl fun _ => Ty.noConfusion
  have target : aliases.concrete (.primitive l.base) = .primitive l.base :=
    concrete_eq_self rfl fun _ => Ty.noConfusion
  have query : (Query.mk (.literal l) (.primitive l.base)).concrete aliases.narrowing.aliases =
      ⟨.literal l, .primitive l.base⟩ := by
    rw [narrowing, Query.concrete, source, target]
  show (Context.check aliases.narrowing (100 + 1) ⟨.literal l, .primitive l.base⟩ _).1 = true
  rw [Context.check, query]
  cases l <;> rfl

theorem mem_literalParts (aliases : AliasMap) (literal : Ty) {members : List Ty} {part : Ty} :
    part ∈ (aliases.literalParts literal members).value ↔
      ∃ m ∈ members, part ∈ (aliases.literalPart literal m).value := by
  induction members with
  | nil => simp [literalParts]
  | cons m ms ih =>
      rw [literalParts, Limited.value_bind, Limited.value_bind, Limited.value_pure, List.mem_append,
        ih]
      simp

theorem literalPart_part (aliases : AliasMap) {l : Literal} {m part : Ty}
    (found : part ∈ (aliases.literalPart (.literal l) m).value) :
    part = m ∨ part.isLiteral = true := by
  rw [literalPart] at found
  split at found
  · exact Or.inl (List.mem_singleton.mp found)
  · rw [Limited.value_bind] at found
    split at found
    · cases List.mem_singleton.mp found
      exact Or.inr rfl
    · cases found

/-- What is kept of a member for a literal that a value of the member is equal to. -/
theorem exists_mem_literalPart (aliases : AliasMap) {Obj Fn : Type} {reading : Reading Obj Fn}
    {x : Value Obj Fn} {m : Ty} (proper : m.isAny = false) (single : m.isUnion = false)
    (held : reading.Holds m x) {l : Literal} (equal : x.equals l = true) :
    ∃ part ∈ (aliases.literalPart (.literal l) m).value, reading.Holds part x := by
  rw [literalPart]
  by_cases same : m.same (.literal l) = true
  · rw [if_pos same]
    exact ⟨m, List.mem_singleton_self m, held⟩
  · have base := (held.same_or_base proper single equal).resolve_left same
    rw [if_neg same, Limited.value_bind, base, compatible_base]
    exact ⟨.literal l, List.mem_singleton_self _, .literal equal⟩

section Values

variable (aliases : AliasMap) {Obj Fn : Type} {reading : Reading Obj Fn} {x : Value Obj Fn}
  {source : Ty} (wf : source.WellFormed) (held : reading.Holds source x)

include wf held

theorem narrowTypeof_holds (name : String) :
    reading.Holds (aliases.narrowTypeof source name (x.typeofName == name)).value x := by
  rw [narrowTypeof, held.concrete_eq_self]
  rcases held.any_or_member wf with rfl | ⟨proper, m, member, properMember, single, heldMember⟩
  · by_cases own : x.typeofName = name
    · cases own
      rw [beq_self_eq_true]
      cases x <;> constructor
    · rw [beq_false_of_ne own]
      exact held
  · have keep : ((aliases.concrete m).hasTypeof name == (x.typeofName == name)) = true := by
      rw [heldMember.concrete_eq_self, heldMember.hasTypeof properMember single, beq_self_eq_true]
    rw [proper, if_neg Bool.false_ne_true, filterMembers, held.concrete_eq_self, Limited.value_bind,
      Limited.value_filter]
    exact .unionOfFilter wf member heldMember keep

theorem narrowToLiteral_holds {l : Literal} (equal : x.equals l = true) :
    reading.Holds (aliases.narrowToLiteral source (.literal l)).value x := by
  rw [narrowToLiteral, held.concrete_eq_self]
  rcases held.any_or_member wf with rfl | ⟨proper, m, member, properMember, single, heldMember⟩
  · exact .literal equal
  · rw [proper, if_neg Bool.false_ne_true, Limited.value_bind, Limited.value_pure]
    obtain ⟨part, left, heldPart⟩ :=
      aliases.exists_mem_literalPart properMember single heldMember equal
    have listed := (aliases.mem_literalParts _).mpr ⟨m, member, left⟩
    refine .unionOfParts wf ?_ listed heldPart
    intro other found
    obtain ⟨n, inside, own⟩ := (aliases.mem_literalParts _).mp found
    rcases aliases.literalPart_part own with rfl | isLiteral
    · exact Or.inl inside
    · exact Or.inr isLiteral

theorem narrowExcludingLiteral_holds {l : Literal} (different : x.equals l = false) :
    reading.Holds (aliases.narrowExcludingLiteral source (.literal l)) x := by
  rw [narrowExcludingLiteral, held.concrete_eq_self]
  rcases held.any_or_member wf with rfl | ⟨proper, m, member, properMember, single, heldMember⟩
  · exact held
  · rw [proper, if_neg Bool.false_ne_true]
    exact .unionOfFilterMap wf (Ty.withoutLiteral?_part _) member
      (heldMember.withoutLiteral properMember single different)

theorem narrowToNullish_holds (nullish : x.isNullish = true) :
    reading.Holds (aliases.narrowToNullish source) x := by
  rw [narrowToNullish, held.concrete_eq_self]
  rcases held.any_or_member wf with rfl | ⟨proper, m, member, properMember, single, heldMember⟩
  · cases x with
    | null => exact .union (.head _) .null
    | undefined => exact .union (.tail _ (.head _)) .undefined
    | _ => cases nullish
  · rw [proper, if_neg Bool.false_ne_true]
    exact .unionOfFilter wf member heldMember
      ((heldMember.isNullish properMember single).trans nullish)

omit aliases in
theorem removeNullish_holds (present : x.isNullish = false) :
    reading.Holds source.removeNullish x := by
  rcases held.any_or_member wf with rfl | ⟨proper, m, member, properMember, single, heldMember⟩
  · exact held
  · cases source with
    | unionOf members =>
        have kept : (!m.isNullish) = true := by
          rw [heldMember.isNullish properMember single, present]
          rfl
        exact .unionOfFilter wf member heldMember kept
    | _ =>
        have kept := (held.isNullish proper rfl).trans present
        rw [Ty.removeNullish, kept]
        · exact held
        · exact fun _ => Ty.noConfusion

theorem narrowTruthy_holds (truthy : x.isTruthy = true) :
    reading.Holds (aliases.narrowTruthy source) x := by
  rw [narrowTruthy, held.concrete_eq_self]
  rcases held.any_or_member wf with rfl | ⟨_, m, member, properMember, single, heldMember⟩
  · exact held
  · exact .unionOfFilterMap wf Ty.truthyPart?_part member
      (heldMember.truthyPart properMember single truthy)

theorem narrowFalsy_holds (falsy : x.isTruthy = false) :
    reading.Holds (aliases.narrowFalsy source) x := by
  rw [narrowFalsy, held.concrete_eq_self]
  rcases held.any_or_member wf with rfl | ⟨proper, m, member, properMember, single, heldMember⟩
  · exact held
  · rw [proper, if_neg Bool.false_ne_true]
    exact .unionOfFilterMap wf Ty.falsyPart?_part member
      (heldMember.falsyPart properMember single falsy)

/-- The value of a variable is a value of its type where a condition on it is known. -/
theorem narrow_keeps_value {guard : Guard} {sense : Bool}
    (known : guard.evaluate? x = some sense) :
    reading.Holds (aliases.narrow source guard sense).value x := by
  cases guard with
  | typeofIs name =>
      cases known
      exact aliases.narrowTypeof_holds wf held name
  | equals ty =>
      cases ty with
      | literal l =>
          cases sense with
          | true => exact aliases.narrowToLiteral_holds wf held (Option.some.inj known)
          | false => exact aliases.narrowExcludingLiteral_holds wf held (Option.some.inj known)
      | _ => cases known
  | nullish =>
      cases sense with
      | true => exact aliases.narrowToNullish_holds wf held (Option.some.inj known)
      | false =>
          show reading.Holds (aliases.concrete source).removeNullish x
          rw [held.concrete_eq_self]
          exact removeNullish_holds wf held (Option.some.inj known)
  | truthy =>
      cases sense with
      | true => exact aliases.narrowTruthy_holds wf held (Option.some.inj known)
      | false => exact aliases.narrowFalsy_holds wf held (Option.some.inj known)
  | is ty => cases known

end Values

/-- A cell that holds a number or some names, or nothing. -/
def cell : Ty := .unionOf [.number, .array .string, .null]

/-- The second zero, which is written `-0`. -/
def negativeZero : Value Unit Unit := .number ⟨0x8000000000000000⟩ (by decide)

/-- All arrays, tuples, objects and records hold every object, and functions likewise. -/
def everywhere : Reading Unit Unit := ⟨fun _ _ => True, fun _ _ => True⟩

/-- Where a number is false in a condition, its type is `0`, and that still holds `-0`. -/
theorem cell_keeps_negativeZero :
    everywhere.Holds cell negativeZero ∧ Guard.truthy.evaluate? negativeZero = some false ∧
      (({} : AliasMap).narrow cell .truthy false).value =
        .unionOf [.literal (.number .zero), .null] ∧
      everywhere.Holds (({} : AliasMap).narrow cell .truthy false).value negativeZero := by
  have wf : cell.WellFormed := by decide +kernel
  have held : everywhere.Holds cell negativeZero := .union (.head _) (.number _ _)
  have falsy : Guard.truthy.evaluate? negativeZero = some false := by decide
  exact ⟨held, falsy, by rfl, narrow_keeps_value {} wf held falsy⟩

end AliasMap

end StructuralTypes
