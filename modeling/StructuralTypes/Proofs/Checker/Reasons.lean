import StructuralTypes.Mismatch
import StructuralTypes.Proofs.Compatibility.Coinduction

set_option autoImplicit false

namespace StructuralTypes

namespace AliasMap

variable (aliases : AliasMap) (value target : Ty)

/-- Every comparison of the two types that hits no limit is positive, whatever the settings. -/
def Fit : Prop :=
  ∀ options, ((⟨aliases, options⟩ : Context).compatible value target).cut = false →
    ((⟨aliases, options⟩ : Context).compatible value target).value = true

/-- No comparison of the two types is positive, whatever the settings. -/
def Unfit : Prop :=
  ∀ options, ((⟨aliases, options⟩ : Context).compatible value target).value = false

/-- Equal types are identical, and so are types that fit in both directions. -/
def Identical : Prop := value.Same target ∨ aliases.Fit value target ∧ aliases.Fit target value

def Distinct : Prop :=
  ¬ value.Same target ∧ (aliases.Unfit value target ∨ aliases.Unfit target value)

end AliasMap

/-- `a` is the item at position `i`, the first of a list that does not pass. -/
structure First {α : Type} (passes fails : α → Prop) (as : List α) (i : Nat) (a : α) : Prop where
  here : as[i]? = some a
  earlier : ∀ b ∈ as.take i, passes b
  fails : fails a

namespace First

variable {α β : Type} {passes fails : β → Prop} {f : α → β} {as : List α} {i : Nat}

theorem map {a : α} (first : First (fun a => passes (f a)) (fun a => fails (f a)) as i a) :
    First passes fails (as.map f) i (f a) where
  here := by rw [List.getElem?_map, first.here, Option.map_some]
  earlier := by
    intro b listed
    rw [← List.map_take] at listed
    obtain ⟨a, inside, rfl⟩ := List.mem_map.mp listed
    exact first.earlier a inside
  fails := first.fails

theorem of_map {b : β} (first : First passes fails (as.map f) i b) :
    ∃ a, f a = b ∧ First (fun a => passes (f a)) (fun a => fails (f a)) as i a := by
  have here := first.here
  rw [List.getElem?_map, Option.map_eq_some_iff] at here
  obtain ⟨a, found, rfl⟩ := here
  refine ⟨a, rfl, found, fun c listed => ?_, first.fails⟩
  apply first.earlier
  rw [← List.map_take]
  exact List.mem_map_of_mem listed

theorem imp {passes' fails' : β → Prop} {bs : List β} {b : β} (first : First passes fails bs i b)
    (pass : ∀ b, passes b → passes' b) (fail : ∀ b, fails b → fails' b) :
    First passes' fails' bs i b :=
  ⟨first.here, fun c listed => pass c (first.earlier c listed), fail b first.fails⟩

end First

/-- There is a reason of its own for pairs of these kinds. -/
def Ty.hasReason : Ty → Ty → Bool
  | .unionOf _, _ | _, .unionOf _ | _, .intersectionOf _ => true
  | .literal _, .literal _ | .literal _, .primitive _ => true
  | .primitive _, .primitive _ | .primitive _, .literal _ => true
  | .array _, .array _ | .tuple _, .tuple _ | .tuple _, .array _ => true
  | .function _, .function _ => true
  | value, target => value.asShape?.isSome && target.asShape?.isSome

namespace Ty

variable {value target : Ty}

theorem isUnion_of_hasReason (kinds : value.hasReason target = false) : target.isUnion = false := by
  cases target with
  | unionOf members => cases value <;> cases kinds
  | _ => rfl

theorem isIntersection_of_hasReason (kinds : value.hasReason target = false) :
    target.isIntersection = false := by
  cases target with
  | intersectionOf members => cases value <;> cases kinds
  | _ => rfl

theorem hasReason_of_asShape? {source shape : Shape Ty} (valueShape : value.asShape? = some source)
    (targetShape : target.asShape? = some shape) : value.hasReason target = true := by
  cases value <;> cases valueShape <;> cases target <;> cases targetShape <;> rfl

end Ty

mutual

/-- The reason is true of a pair of concrete types. -/
inductive Genuine (aliases : AliasMap) : Ty → Ty → Mismatch → Prop
  | sourceMember {sources : List Ty} {target member : Ty} {i : Nat}
    (first : First (aliases.Fit · target) (aliases.Unfit · target) sources i member) :
    Genuine aliases (.unionOf sources) target (.sourceMember member target)
  | noMember {value : Ty} {members : List Ty} (single : value.isUnion = false)
    (each : ∀ member ∈ members, aliases.Unfit value member) :
    Genuine aliases value (.unionOf members) (.noMember value members)
  | targetMember {value member : Ty} {members : List Ty} {i : Nat} (single : value.isUnion = false)
    (first : First (aliases.Fit value) (aliases.Unfit value) members i member) :
    Genuine aliases value (.intersectionOf members) (.targetMember member)
  | literal {a b : Literal} (different : a.same b = false) :
    Genuine aliases (.literal a) (.literal b) (.literal (.literal a) (.literal b))
  | literalKeyword {a : Literal} {kind : Primitive} (different : a.base ≠ kind) :
    Genuine aliases (.literal a) (.primitive kind) (.literal (.literal a) (.primitive kind))
  | keyword {a b : Primitive} (different : a ≠ b) :
    Genuine aliases (.primitive a) (.primitive b) (.primitive (.primitive a) (.primitive b))
  | keywordLiteral (kind : Primitive) (a : Literal) :
    Genuine aliases (.primitive kind) (.literal a) (.primitive (.primitive kind) (.literal a))
  | arrayElement {s t : Ty} (unfit : aliases.Unfit s t) :
    Genuine aliases (.array s) (.array t) (.arrayElement s t)
  | elementCount {ss ts : List Ty} (different : ss.length ≠ ts.length) :
    Genuine aliases (.tuple ss) (.tuple ts) (.elementCount ss.length ts.length)
  | tupleElement {ss ts : List Ty} {i : Nat} {s t : Ty} (counts : ss.length = ts.length)
    (first : First (fun p => aliases.Fit p.1 p.2) (fun p => aliases.Unfit p.1 p.2) (ss.zip ts) i
      (s, t)) :
    Genuine aliases (.tuple ss) (.tuple ts) (.tupleElement i s t)
  | arrayedElement {ss : List Ty} {i : Nat} {s t : Ty}
    (first : First (aliases.Fit · t) (aliases.Unfit · t) ss i s) :
    Genuine aliases (.tuple ss) (.array t) (.tupleElement i s t)
  | paramCount {source target : Signature Ty}
    (different : source.params.length ≠ target.params.length) :
    Genuine aliases (.function source) (.function target)
      (.paramCount source.params.length target.params.length)
  | param {source target : Signature Ty} {i : Nat} {s t : Ty}
    (counts : source.params.length = target.params.length)
    (first : First (fun p => aliases.Identical p.1 p.2) (fun p => aliases.Distinct p.1 p.2)
      (source.params.zip target.params) i (s, t)) :
    Genuine aliases (.function source) (.function target) (.param i s t)
  | result {source target : Signature Ty}
    (unfit : aliases.Unfit source.result target.result ∨
      aliases.Unfit target.result source.result) :
    Genuine aliases (.function source) (.function target) (.result source.result target.result)
  | slot {value target : Ty} {source shape : Shape Ty} {reason : Mismatch}
    (valueShape : value.asShape? = some source) (targetShape : target.asShape? = some shape)
    (genuine : GenuineSlot aliases source shape reason) : Genuine aliases value target reason
  /-- Nothing more is said about `never`. -/
  | toNever (value : Ty) : Genuine aliases value .never (.other value .never)
  /-- Neither the members of an intersection nor its merged shape fit. -/
  | ofIntersection {members : List Ty} {target : Ty}
    (kinds : Ty.hasReason (.intersectionOf members) target = false)
    (each : ∀ member ∈ members, aliases.Unfit member target)
    (merged : ∀ shape, target.asShape?.isSome = true →
      aliases.merge (.intersectionOf members) = .shape shape →
        aliases.Unfit (.object shape) target) :
    Genuine aliases (.intersectionOf members) target (.other (.intersectionOf members) target)
  /-- No rule goes from the one kind of type to the other. -/
  | unrelated {value target : Ty} (single : value.isIntersection = false)
    (kinds : Ty.hasReason value target = false)
    (none : ∀ holds, ¬ ByShape aliases holds value target) :
    Genuine aliases value target (.other value target)

/-- The reason is true of a slot of a source shape or of a target shape. -/
inductive GenuineSlot (aliases : AliasMap) : Shape Ty → Shape Ty → Mismatch → Prop
  | missing {source target : Shape Ty} {slot : Property Ty} (declared : slot ∈ target.properties)
    (required : slot.optional = false) (absent : source.property? slot.name = none)
    (uncovered : source.index = none) :
    GenuineSlot aliases source target (.missingProperty slot.name)
  | optional {source target : Shape Ty} {slot property : Property Ty}
    (declared : slot ∈ target.properties) (required : slot.optional = false)
    (found : source.property? slot.name = some property) (given : property.optional = true) :
    GenuineSlot aliases source target (.optionalProperty slot.name)
  | property {source target : Shape Ty} {slot property : Property Ty} {nested : Option Mismatch}
    (declared : slot ∈ target.properties) (found : source.property? slot.name = some property)
    (unfit : aliases.Unfit property.ty slot.declared)
    (inside : ∀ reason, nested = some reason →
      Genuine aliases (aliases.concrete property.ty) (aliases.concrete slot.declared) reason) :
    GenuineSlot aliases source target (.propertyType slot.name property.ty slot.ty nested)
  | covered {source target : Shape Ty} {slot : Property Ty} {index : IndexSignature Ty}
    (declared : slot ∈ target.properties) (required : slot.optional = false)
    (absent : source.property? slot.name = none) (covers : source.index = some index)
    (unfit : aliases.Unfit index.value slot.ty) :
    GenuineSlot aliases source target (.indexValue index.value slot.ty)
  | indexed {source target : Shape Ty} {property : Property Ty} {index : IndexSignature Ty}
    (listed : property ∈ source.properties) (declared : target.index = some index)
    (unfit : aliases.Unfit property.ty index.value) :
    GenuineSlot aliases source target (.propertyType property.name property.ty index.value none)
  | index {source target : Shape Ty} {own index : IndexSignature Ty}
    (given : source.index = some own) (declared : target.index = some index)
    (unfit : aliases.Unfit own.value index.value) :
    GenuineSlot aliases source target (.indexValue own.value index.value)

end

namespace AliasMap

variable (aliases : AliasMap) {value target : Ty}

/-- The two types are derived to be compatible, inside of no other query. -/
def Derives (value target : Ty) : Prop := Derivable aliases [] ⟨value, target⟩

variable {aliases}

/-- A pair is derived if its rule holds of derived parts. The rule is tried inside of the pair, and
what is derived inside of no query is derived there too. -/
theorem derives_of_justified (justified : Justified aliases aliases.Derives
    (aliases.concrete value) (aliases.concrete target)) : aliases.Derives value target := by
  apply Derivable.ofJustified
  refine justified.mono fun v t derived => ?_
  exact Derivable.weaken derived fun p known => by cases known

theorem Derives.fit (derived : aliases.Derives value target) : aliases.Fit value target :=
  fun options => Context.compatible_of_derivable ⟨aliases, options⟩ derived

theorem unfit_of_not_derives (missing : ¬ aliases.Derives value target) :
    aliases.Unfit value target := by
  intro options
  rw [← Bool.not_eq_true]
  exact fun accepted => missing (Context.derivable_of_compatible ⟨aliases, options⟩ accepted)

/-- What `Identical` and `Distinct` come from. -/
def DerivesBoth (aliases : AliasMap) (a b : Ty) : Prop :=
  a.Same b ∨ aliases.Derives a b ∧ aliases.Derives b a

theorem unfit_or_unfit (missing : ¬ (aliases.Derives value target ∧ aliases.Derives target value)) :
    aliases.Unfit value target ∨ aliases.Unfit target value :=
  (not_and_or.mp missing).imp unfit_of_not_derives unfit_of_not_derives

theorem DerivesBoth.identical (both : aliases.DerivesBoth value target) :
    aliases.Identical value target := both.imp_right fun derived => ⟨derived.1.fit, derived.2.fit⟩

theorem distinct_of_not_derivesBoth (missing : ¬ aliases.DerivesBoth value target) :
    aliases.Distinct value target :=
  ⟨fun same => missing (Or.inl same), unfit_or_unfit fun both => missing (Or.inr both)⟩

end AliasMap

section Derived

variable {aliases : AliasMap} {value target : Ty}

/-- A search that went by derivations found a first item that does not fit. -/
theorem First.unfit {α : Type} {f g : α → Ty} {as : List α} {i : Nat} {a : α}
    (first : First (fun a => aliases.Derives (f a) (g a)) (fun a => ¬ aliases.Derives (f a) (g a))
      as i a) :
    First (fun a => aliases.Fit (f a) (g a)) (fun a => aliases.Unfit (f a) (g a)) as i a :=
  first.imp (fun _ => AliasMap.Derives.fit) fun _ => AliasMap.unfit_of_not_derives

theorem genuine_ofIntersection {members : List Ty}
    (kinds : Ty.hasReason (.intersectionOf members) target = false)
    (unmet : ¬ ByShape aliases aliases.Derives (.intersectionOf members) target) :
    Genuine aliases (.intersectionOf members) target (.other (.intersectionOf members) target) := by
  have noUnion := Ty.isUnion_of_hasReason kinds
  have noIntersection := Ty.isIntersection_of_hasReason kinds
  refine .ofIntersection kinds (fun m listed => ?_) fun merged shaped merges => ?_
  · refine AliasMap.unfit_of_not_derives fun derived => unmet ?_
    exact .ofMember noUnion noIntersection listed derived
  · obtain ⟨shape, found⟩ := Option.isSome_iff_exists.mp shaped
    exact AliasMap.unfit_of_not_derives fun derived => unmet (.ofMerged found merges derived)

/-- The rules that ask for nothing hold of derived parts too; all others are for other kinds. -/
theorem genuine_unrelated (single : value.isIntersection = false)
    (kinds : value.hasReason target = false)
    (unmet : ¬ ByShape aliases aliases.Derives value target) :
    Genuine aliases value target (.other value target) := by
  refine .unrelated single kinds fun holds rule => ?_
  cases rule with
  | anyFunction => exact unmet .anyFunction
  | ofAnyFunction target => exact unmet (.ofAnyFunction target)
  | toAnyFunction source => exact unmet (.toAnyFunction source)
  | predicate parameter guard => exact unmet (.predicate parameter guard)
  | sameClass valueShape targetShape valueClass targetClass =>
      exact unmet (.sameClass valueShape targetShape valueClass targetClass)
  | shapes valueShape targetShape met =>
      rw [Ty.hasReason_of_asShape? valueShape targetShape] at kinds
      cases kinds
  | toUnion single listed accepts => cases Ty.isUnion_of_hasReason kinds
  | toIntersection single each => cases Ty.isIntersection_of_hasReason kinds
  | ofMember noUnion noIntersection listed accepted => cases single
  | ofMerged shaped merges accepted => cases single
  | _ => cases kinds

theorem genuine_other (kinds : value.hasReason target = false)
    (refused : ¬ Justified aliases aliases.Derives value target) :
    Genuine aliases value target (.other value target) := by
  by_cases never : target.isNever = true
  · rw [(isNever_iff target).mp never]
    exact .toNever value
  · rw [Bool.not_eq_true] at never
    have unmet : ¬ ByShape aliases aliases.Derives value target := fun rule =>
      refused (.byShape never rule)
    cases value with
    | intersectionOf members => exact genuine_ofIntersection kinds unmet
    | _ => exact genuine_unrelated rfl kinds unmet

end Derived

end StructuralTypes
